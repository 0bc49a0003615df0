import SmallC.Proofs.Parsing.Definitions
import SmallC.Proofs.Parsing.Trees

/-!
What the expression parser accepts. Behind each token that it has taken in, the operators that are still open and
the operand in hand render the tokens so far, so tokens that are parsed to their end render the tree. The one thing
that the parser passes over is a pair of parentheses with nothing between them where it waits for an operand.
Tokens without such a pair are parsed as a tree exactly if they render it.
-/
namespace SmallC

open SmallC.Parser

/-- Only operators that can also stand between operands are marked as standing before one. -/
def Marked (tokens : List Lexeme) : Prop := ∀ l ∈ tokens, l.beforeOperand = true → l.token.isAmbiguous = true

/-- Striking out pairs of parentheses that have nothing between them, where no operand ends, leaves the second
tokens of the first. -/
inductive Struck : List Lexeme → List Lexeme → Prop where
  | nil : Struck [] []
  | keep {us ts : List Lexeme} (struck : Struck us ts) (l : Lexeme) : Struck (us ++ [l]) (ts ++ [l])
  | pair {us ts inside : List Lexeme} {l r : Lexeme} (struck : Struck us ts)
      (free : ∀ m ∈ ts.getLast?, m.token.endsOperand = false) (opens : l.token = .opening .round)
      (empty : Struck inside []) (closes : r.token = .closing .round) : Struck (us ++ (l :: inside ++ [r])) ts

/-- Tokens render a tree once such pairs of parentheses are struck out. -/
def Accepted (declared : Declarations) (tokens : List Lexeme) (t : Tree) : Prop :=
  ∃ us, Struck tokens us ∧ Renders declared 1 us t

/-- No parentheses have nothing between them but those of a call. -/
def Solid (tokens : List Lexeme) : Prop :=
  ∀ before l r behind, tokens = before ++ l :: r :: behind → l.token = .opening .round → r.token = .closing .round →
    ∃ m ∈ before.getLast?, ∃ name, m.token = .ident name

variable {declared : Declarations} {d m n : Nat} {σ σ' : Scopes} {frames frames' : List Frame} {f : Frame}
  {e right : Expr} {ts us vs ws done tokens : List Lexeme} {l r : Lexeme} {s s' : Spine}

theorem Marked.of_subset (marked : Marked tokens) (within : ts ⊆ tokens) : Marked ts :=
  fun l member => marked l (within member)

namespace Struck

theorem append (struck : Struck us ts) (behind : Struck vs ws)
    (free : ∀ m ∈ ts.getLast?, m.token.endsOperand = false) : Struck (us ++ vs) (ts ++ ws) := by
  induction behind with
  | nil => simpa using struck
  | keep _ l ih => simpa using ih.keep l
  | @pair vs ws inside l r _ free' opens empty closes ih _ =>
    rw [← List.append_assoc]
    refine ih.pair (fun m last => ?_) opens empty closes
    rcases List.eq_nil_or_concat ws with rfl | ⟨ws, w, rfl⟩
    · exact free m (by simpa using last)
    · rw [List.concat_eq_append] at last free'
      rw [← List.append_assoc, List.getLast?_concat] at last
      exact free' m (by rwa [List.getLast?_concat])

/-- Where a token is kept that no operand ends with, no operand ends. -/
theorem free_of_last (ends : l.token.endsOperand = false) :
    ∀ m ∈ (ts ++ [l]).getLast?, m.token.endsOperand = false := by
  intro m last
  rw [List.getLast?_concat] at last
  cases last
  exact ends

theorem token (l : Lexeme) : Struck [l] [l] := nil.keep l

/-- Behind a token that is kept, only empty pairs can follow the last one that is. -/
theorem last (struck : Struck us (ts ++ [l])) :
    ∃ vs inside, us = vs ++ l :: inside ∧ Struck vs ts ∧ Struck inside [] := by
  generalize same : ts ++ [l] = whole at struck
  induction struck with
  | nil => simp at same
  | keep struck l' _ =>
    obtain ⟨rfl, rfl⟩ := List.append_singleton_inj.1 same
    exact ⟨_, [], rfl, struck, .nil⟩
  | @pair us _ inside l' r _ _ opens empty closes ih _ =>
    obtain ⟨vs, behind, rfl, struck, empty'⟩ := ih same
    exact ⟨vs, behind ++ (l' :: inside ++ [r]), by simp, struck, empty'.pair (by simp) opens empty closes⟩

/-- An opening token behind a head, what is between it and its closer, and the closer. -/
theorem bracketed {opener closer : Lexeme} (inside : Struck vs ws) (opens : opener.token.endsOperand = false)
    (head : Lexeme) : Struck (head :: opener :: vs ++ [closer]) (head :: opener :: ws ++ [closer]) := by
  have front := ((token head).keep opener).append inside (free_of_last opens)
  simpa using front.keep closer

/-- Tokens of which nothing remains are parentheses. -/
theorem parentheses (struck : Struck us []) : ∀ m ∈ us, m.token = .opening .round ∨ m.token = .closing .round := by
  generalize none : [] = ts at struck
  induction struck with
  | nil => nofun
  | keep => simp at none
  | pair _ _ opens _ closes ih ih' =>
    intro m member
    simp only [List.mem_append, List.mem_cons, List.not_mem_nil, or_false] at member
    rcases member with member | (rfl | member) | rfl
    · exact ih none m member
    · exact .inl opens
    · exact ih' rfl m member
    · exact .inr closes

/-- Of nested pairs, the innermost has nothing between its parentheses. -/
theorem innermost (struck : Struck us []) (opens : l.token = .opening .round) (closes : r.token = .closing .round) :
    ∃ before o c behind, l :: us ++ [r] = before ++ o :: c :: behind ∧ o.token = .opening .round ∧
      c.token = .closing .round := by
  obtain ⟨left, none⟩ : ∃ left : List Lexeme, left = [] := ⟨_, rfl⟩
  rw [← none] at struck
  induction struck generalizing l r with
  | nil => exact ⟨[], l, r, [], rfl, opens, closes⟩
  | keep => simp at none
  | @pair us _ inside l' r' _ _ opens' _ closes' _ ih =>
    obtain ⟨before, o, c, behind, whole, opens, closes⟩ := ih opens' closes' rfl
    refine ⟨l :: us ++ before, o, c, behind ++ [r], ?_, opens, closes⟩
    rw [whole]
    simp

/-- From tokens without such pairs, nothing is struck out. -/
theorem eq_of_solid (struck : Struck us ts) (solid : Solid us) : us = ts := by
  have front : ∀ {vs ws : List Lexeme}, Solid (vs ++ ws) → Solid vs := by
    intro vs ws solid before l r behind whole
    exact solid before l r (behind ++ ws) (by simp [whole])
  induction struck with
  | nil => rfl
  | keep _ l ih => rw [ih (front solid)]
  | @pair us ts inside l r _ free opens empty closes ih _ =>
    obtain ⟨before, o, c, behind, whole, opens', closes'⟩ := empty.innermost opens closes
    obtain ⟨m, last, name, is⟩ := solid (us ++ before) o c behind (by rw [whole, List.append_assoc]) opens' closes'
    cases before with
    | nil =>
      rw [List.append_nil, ih (front solid)] at last
      have ends := free m last
      rw [is] at ends
      cases ends
    | cons b before =>
      have member : m ∈ l :: inside ++ [r] := by
        rw [List.getLast?_append, List.getLast?_cons, Option.some_or, ← List.getLast?_cons] at last
        rw [whole]
        exact List.mem_append_left _ (List.mem_of_getLast? last)
      have pair := Struck.nil.pair (by simp) opens empty closes
      rcases pair.parentheses m member with other | other
      all_goals
        rw [is] at other
        cases other

end Struck

theorem RendersIndices.index {n : Nat} {name : String} {es : List Expr}
    (indices : RendersIndices declared ts (Expr.trees es)) (token : l.token = .ident name)
    (known : declared.indices? name = some es.length) (nonempty : es ≠ []) :
    Renders declared n (l :: ts) (.index name (Expr.trees es)) := by
  cases es with
  | nil => exact absurd rfl nonempty
  | cons e es => exact .index token (by rw [known, Expr.length_trees, List.length_cons]) indices

namespace Parser

theorem one_le_precedence (op : InnerOperator) : 1 ≤ op.precedence := by
  cases op with
  | assign => exact Nat.le_refl _
  | binary op => exact Nat.le_of_lt (assignPrecedence_lt op)

theorem closesBefore_iff (op : InnerOperator) (d : Nat) (f : Frame) : closesBefore op d f = true ↔
    d ≤ f.depth ∧ (op.precedence < f.operator.precedence ∨
      op.precedence = f.operator.precedence ∧ op.groupsRight = false) := by
  simp [closesBefore]

/-! ### Open operators -/

/-- Tokens behind which an operand is awaited that binds at least so tightly: the operators that are open and the
parentheses around them, with the renderings of the operands on their left. -/
inductive Awaits (declared : Declarations) : List Frame → Nat → Nat → List Lexeme → Prop where
  | start : Awaits declared [] 0 1 []
  | parenthesis {frames : List Frame} {d n : Nat} {ts : List Lexeme} {l : Lexeme}
      (around : Awaits declared frames d n ts) (opens : l.token = .opening .round) :
      Awaits declared frames (d + 1) 1 (ts ++ [l])
  | unary {frames : List Frame} {d n line : Nat} {ts : List Lexeme} {l : Lexeme} {op : UnaryOp}
      (around : Awaits declared frames d n ts) (level : n ≤ unaryPrecedence) (token : l.token = op.token)
      (before : op ≠ .not → l.beforeOperand = true) :
      Awaits declared (⟨.unary op, d, line⟩ :: frames) d unaryPrecedence (ts ++ [l])
  | binary {frames : List Frame} {d n line : Nat} {ts us : List Lexeme} {l : Lexeme} {op : BinaryOp} {left : Expr}
      (around : Awaits declared frames d n ts) (level : n ≤ op.precedence)
      (rendered : Renders declared op.precedence us left.tree) (token : l.token = .operator op)
      (between : l.beforeOperand = false) :
      Awaits declared (⟨.binary op left, d, line⟩ :: frames) d (op.precedence + 1) (ts ++ (us ++ [l]))
  | assign {frames : List Frame} {d n line : Nat} {ts us : List Lexeme} {l : Lexeme} {op : Option WordOp}
      {target : Expr} (around : Awaits declared frames d n ts) (level : n ≤ assignPrecedence)
      (rendered : Renders declared (assignPrecedence + 1) us target.tree) (token : l.token = .assign op) :
      Awaits declared (⟨.assign op target, d, line⟩ :: frames) d assignPrecedence (ts ++ (us ++ [l]))

namespace Awaits

theorem free (awaits : Awaits declared frames d n ts) : ∀ m ∈ ts.getLast?, m.token.endsOperand = false := by
  cases awaits with
  | start => nofun
  | parenthesis _ opens => exact Struck.free_of_last (by rw [opens]; rfl)
  | @unary _ _ _ _ _ _ op _ _ token => exact Struck.free_of_last (by rw [token]; cases op <;> rfl)
  | binary _ _ _ token | assign _ _ _ token =>
    rw [← List.append_assoc]
    exact Struck.free_of_last (by rw [token]; rfl)

theorem level_le (awaits : Awaits declared frames d n ts) : n ≤ unaryPrecedence := by
  cases awaits with
  | start | parenthesis => decide
  | unary => exact Nat.le_refl _
  | @binary _ _ _ _ _ _ _ op => exact unaryPrecedence_lt (.binary op)
  | @assign _ _ _ _ _ _ _ op => exact Nat.le_of_lt (unaryPrecedence_lt (.assign op))

theorem depth_le (awaits : Awaits declared (f :: frames) d n ts) : f.depth ≤ d := by
  generalize same : f :: frames = whole at awaits
  induction awaits with
  | start => cases same
  | parenthesis _ _ ih => exact Nat.le_succ_of_le (ih same)
  | unary | binary | assign =>
    cases same
    exact Nat.le_refl _

/-- An operator that closes none of those that are open stands on a level that they leave to it. -/
theorem level_le_of_waits {op : InnerOperator} (awaits : Awaits declared frames d n ts)
    (waits : ∀ f ∈ frames.head?, closesBefore op d f = false) : n ≤ op.precedence := by
  have tighter : ∀ {f : Frame}, closesBefore op d f = false → f.depth = d → ¬ op.precedence < f.operator.precedence ∧
      (op.precedence = f.operator.precedence → op.groupsRight = true) := by
    intro f waits depth
    rw [← Bool.not_eq_true, closesBefore_iff] at waits
    refine ⟨fun tighter => waits ⟨Nat.le_of_eq depth.symm, .inl tighter⟩, fun same => ?_⟩
    exact eq_true_of_ne_false fun left => waits ⟨Nat.le_of_eq depth.symm, .inr ⟨same, left⟩⟩
  cases awaits with
  | start | parenthesis => exact one_le_precedence op
  | unary => exact absurd (unaryPrecedence_lt op) (tighter (waits _ rfl) rfl).1
  | @binary _ _ _ _ _ _ _ op' =>
    obtain ⟨looser, groups⟩ := tighter (waits _ rfl) rfl
    rcases Nat.lt_or_eq_of_le (Nat.not_lt.1 looser) with below | same
    · exact below
    · cases op with
      | binary => cases groups same.symm
      | assign => exact absurd same (Nat.ne_of_gt (assignPrecedence_lt op'))
  | assign => exact one_le_precedence op

/-- Inside of the innermost parenthesis, no operator is open. -/
theorem behind (awaits : Awaits declared frames (d + 1) n ts) (outside : ∀ f ∈ frames.head?, ¬ d < f.depth) :
    n = 1 ∧ ∃ m ws l, Awaits declared frames d m ws ∧ ts = ws ++ [l] ∧ l.token = .opening .round := by
  cases awaits with
  | parenthesis around opens => exact ⟨rfl, _, _, _, around, rfl, opens⟩
  | unary | binary | assign => exact absurd (Nat.lt_succ_self d) (outside _ rfl)

end Awaits

/-! ### Closing operators -/

theorem assignable_of_isAssignable {op : Option WordOp} {target : Expr} (assignable : isAssignable σ op target = true) :
    target.tree.Assignable σ.find? op := by
  cases target with
  | var line name occurrence =>
    rw [Expr.tree, Tree.Assignable]
    intro ty dims line is
    rw [isAssignable, is] at assignable
    cases assignable
  | index =>
    rw [Expr.tree, Tree.Assignable]
    exact Option.isNone_iff_eq_none.1 assignable
  | unary line op' operand =>
    cases op' with
    | deref =>
      rw [Expr.tree, Tree.Assignable]
      exact Option.isNone_iff_eq_none.1 assignable
    | neg | ref | not => cases assignable
  | int | fixed | binary | assign | call => cases assignable

/-- A frame that closes takes its operand, and its expression binds as tightly as its operator. -/
theorem Awaits.close (awaits : Awaits declared (f :: frames) d n ts) (depth : d ≤ f.depth)
    (rendered : Renders declared n us right.tree) (names : σ.find? = declared)
    (closed : (closeFrame f right).run σ = .ok (e, σ')) :
    σ' = σ ∧ ∃ m vs ws, Awaits declared frames d m ws ∧ ts ++ us = ws ++ vs ∧ m ≤ f.operator.precedence ∧
      ∀ k ≤ f.operator.precedence, Renders declared k vs e.tree := by
  cases awaits with
  | parenthesis around => exact absurd around.depth_le (Nat.not_le.2 depth)
  | @unary _ _ n line ts l op around level token before =>
    simp only [closeFrame] at closed
    split at closed
    · cases closed
    · next accepted =>
      cases closed
      refine ⟨rfl, n, l :: us, ts, around, by simp, level, fun k tight => ?_⟩
      rw [Expr.tree]
      refine .unary tight token before rendered fun needs => ?_
      cases right with
      | var line name occurrence => exact ⟨name, rfl⟩
      | _ => exact absurd ⟨needs, rfl⟩ accepted
  | @binary _ _ n line ts left l op e around level before token between =>
    cases closed
    refine ⟨rfl, n, left ++ l :: us, ts, around, by simp, level, fun k loose => ?_⟩
    rw [Expr.tree]
    exact .binary loose before token between rendered
  | @assign _ _ n line ts left l op target around level before token =>
    simp only [closeFrame] at closed
    rw [run_get_bind] at closed
    split at closed
    · next assignable =>
      cases closed
      refine ⟨rfl, n, left ++ l :: us, ts, around, by simp, level, fun k loose => ?_⟩
      rw [Expr.tree]
      exact .assign loose before (names ▸ assignable_of_isAssignable assignable) token rendered
    · cases closed

/-- Closing operators of the innermost depth, all of at least one level, gives an operand that stands at that level
and at the one that is awaited. -/
theorem Awaits.closes {condition : Frame → Bool} {p : Nat}
    (within : ∀ f, condition f = true → d ≤ f.depth ∧ p ≤ f.operator.precedence)
    (awaits : Awaits declared frames d n ts) (rendered : ∀ k, k ≤ n ∨ k ≤ p → Renders declared k us right.tree)
    (names : σ.find? = declared) (closed : (closeWhile condition right frames).run σ = .ok ((frames', e), σ')) :
    σ' = σ ∧ (∀ f ∈ frames'.head?, condition f = false) ∧ ∃ m vs ws, Awaits declared frames' d m ws ∧
      ts ++ us = ws ++ vs ∧ ∀ k, k ≤ m ∨ k ≤ p → Renders declared k vs e.tree := by
  induction frames generalizing right n ts us σ with
  | nil =>
    cases closed
    exact ⟨rfl, nofun, n, us, ts, awaits, rfl, rendered⟩
  | cons f rest ih =>
    rw [closeWhile] at closed
    split at closed
    · next holds =>
      obtain ⟨e', mid, closed', ran⟩ := run_bind_inv closed
      obtain ⟨rfl, m, vs, ws, around, same, level, rendered'⟩ :=
        awaits.close (within f holds).1 (rendered n (.inl (Nat.le_refl n))) names closed'
      rw [same]
      exact ih around (fun k bound => rendered' k (bound.elim (Nat.le_trans · level)
        (Nat.le_trans · (within f holds).2))) names ran
    · next fails =>
      cases closed
      refine ⟨rfl, fun g first => ?_, n, us, ts, awaits, rfl, rendered⟩
      cases first
      exact eq_false_of_ne_true fails

/-! ### Taking in tokens -/

/-- What the parser has of the tokens that it has taken in: they render its open operators and its operand, once
empty pairs of parentheses are struck out. -/
inductive Built (declared : Declarations) : Spine → List Lexeme → Prop where
  | awaiting {frames : List Frame} {d n : Nat} {ts done : List Lexeme} (awaits : Awaits declared frames d n ts)
      (struck : Struck done ts) : Built declared ⟨frames, none, d⟩ done
  | complete {frames : List Frame} {d n : Nat} {ts us done : List Lexeme} {e : Expr}
      (awaits : Awaits declared frames d n ts) (rendered : ∀ k, Renders declared k us e.tree)
      (struck : Struck done (ts ++ us)) : Built declared ⟨frames, some e, d⟩ done

namespace Built

theorem empty : Built declared Spine.empty [] := .awaiting .start .nil

theorem operand (built : Built declared s done) (rendered : ∀ k, Renders declared k us e.tree) (struck : Struck vs us)
    (pushed : (pushOperand s l e).run σ = .ok (s', σ')) : σ' = σ ∧ Built declared s' (done ++ vs) := by
  cases built with
  | awaiting awaits struck' =>
    cases pushed
    exact ⟨rfl, .complete awaits rendered (struck'.append struck awaits.free)⟩
  | complete => cases pushed

theorem unary {op : UnaryOp} {line : Nat} (built : Built declared s done) (token : l.token = op.token)
    (before : op ≠ .not → l.beforeOperand = true) (pushed : (pushUnary s line op).run σ = .ok (s', σ')) :
    σ' = σ ∧ Built declared s' (done ++ [l]) := by
  cases built with
  | awaiting awaits struck =>
    cases pushed
    exact ⟨rfl, .awaiting (awaits.unary awaits.level_le token before) (struck.keep l)⟩
  | complete => cases pushed

theorem inner {op : InnerOperator} {line : Nat} (built : Built declared s done) (token : l.token = op.token)
    (between : ∀ binary, op = .binary binary → l.beforeOperand = false) (names : σ.find? = declared)
    (pushed : (pushInner s line op).run σ = .ok (s', σ')) : σ' = σ ∧ Built declared s' (done ++ [l]) := by
  cases built with
  | awaiting => cases pushed
  | @complete frames d n ts us done e awaits rendered struck =>
    obtain ⟨⟨frames', left⟩, mid, closed, ran⟩ := run_bind_inv pushed
    cases ran
    cases op with
    | binary op =>
      obtain ⟨rfl, waits, m, vs, ws, around, same, rendered'⟩ := awaits.closes (p := op.precedence)
        (fun f holds => ((closesBefore_iff _ _ _).1 holds).imp id fun tighter =>
          tighter.elim Nat.le_of_lt fun same => Nat.le_of_eq same.1) (fun k _ => rendered k) names closed
      refine ⟨rfl, .awaiting (around.binary (around.level_le_of_waits waits)
        (rendered' _ (.inr (Nat.le_refl _))) token (between op rfl)) ?_⟩
      rw [← List.append_assoc, ← same]
      exact struck.keep l
    | assign op =>
      obtain ⟨rfl, waits, m, vs, ws, around, same, rendered'⟩ := awaits.closes (p := assignPrecedence + 1)
        (fun f holds => ((closesBefore_iff _ _ _).1 holds).imp id fun tighter =>
          tighter.resolve_right fun same => by cases same.2) (fun k _ => rendered k) names closed
      refine ⟨rfl, .awaiting (around.assign (around.level_le_of_waits waits)
        (rendered' _ (.inr (Nat.le_refl _))) token) ?_⟩
      rw [← List.append_assoc, ← same]
      exact struck.keep l

theorem opens (built : Built declared s done) (token : l.token = .opening .round)
    (opened : (openParenthesis s l).run σ = .ok (s', σ')) : σ' = σ ∧ Built declared s' (done ++ [l]) := by
  cases built with
  | awaiting awaits struck =>
    cases opened
    exact ⟨rfl, .awaiting (awaits.parenthesis token) (struck.keep l)⟩
  | complete => cases opened

/-- A parenthesis that closes makes an operand of what is inside of it. If nothing is, the pair is empty. -/
theorem closes {line : Nat} (built : Built declared s done) (token : r.token = .closing .round)
    (names : σ.find? = declared) (closed : (closeParenthesis s line).run σ = .ok (s', σ')) :
    σ' = σ ∧ Built declared s' (done ++ [r]) := by
  cases built with
  | @awaiting frames d n ts done awaits struck =>
    cases d with
    | zero => cases closed
    | succ d =>
      have outside : ∀ f ∈ frames.head?, ¬ d < f.depth := by
        intro f first
        cases frames with
        | nil => cases first
        | cons g rest =>
          cases first
          simp only [closeParenthesis, closeSpine] at closed
          split at closed
          · cases closed
          · next fails => simpa using fails
      have same : σ' = σ ∧ s' = ⟨frames, none, d⟩ := by
        cases frames with
        | nil =>
          cases closed
          exact ⟨rfl, rfl⟩
        | cons g rest =>
          simp only [closeParenthesis, closeSpine] at closed
          rw [if_neg (by simpa using outside g rfl)] at closed
          cases closed
          exact ⟨rfl, rfl⟩
      obtain ⟨rfl, rfl⟩ := same
      obtain ⟨-, m, ws, l, around, rfl, opens⟩ := awaits.behind outside
      obtain ⟨vs, inside, rfl, struck', empty⟩ := struck.last
      refine ⟨rfl, .awaiting around ?_⟩
      have struck := struck'.pair around.free opens empty token
      simpa using struck
  | @complete frames d n ts us done e awaits rendered struck =>
    cases d with
    | zero => cases closed
    | succ d =>
      obtain ⟨⟨frames', e'⟩, mid, closed', ran⟩ := run_bind_inv closed
      cases ran
      obtain ⟨rfl, waits, m, vs, ws, around, same, rendered'⟩ := awaits.closes (p := 0)
        (fun f holds => ⟨of_decide_eq_true holds, Nat.zero_le _⟩) (fun k _ => rendered k) names closed'
      obtain ⟨rfl, m, ws, l, outer, rfl, opens⟩ := around.behind fun f first => of_decide_eq_false (waits f first)
      have operand : ∀ k, Renders declared k (l :: vs ++ [r]) e'.tree :=
        fun k => .parentheses opens (rendered' 1 (.inl (Nat.le_refl 1))) token
      refine ⟨rfl, .complete outer operand ?_⟩
      have struck := struck.keep r
      rw [same] at struck
      simpa using struck

/-- A spine that ends as an expression holds one rendering. -/
theorem finishes {line : Nat} (built : Built declared s done) (names : σ.find? = declared)
    (finished : (finish line s).run σ = .ok (e, σ')) : σ' = σ ∧ Accepted declared done e.tree := by
  unfold finish at finished
  obtain ⟨shallow, ran⟩ := run_refuse_inv finished
  obtain ⟨closed, mid, closed', ended⟩ := run_bind_inv ran
  cases built with
  | @awaiting frames =>
    cases frames with
    | nil =>
      cases closed'
      cases ended
    | cons => cases closed'
  | @complete frames d n ts us done operand awaits rendered struck =>
    cases Decidable.not_not.1 shallow
    obtain ⟨⟨frames', e'⟩, mid, closed'', ran⟩ := run_bind_inv closed'
    cases ran
    cases ended
    obtain ⟨rfl, waits, m, vs, ws, around, same, rendered'⟩ := awaits.closes (p := 0)
      (fun f _ => ⟨Nat.zero_le _, Nat.zero_le _⟩) (fun k _ => rendered k) names closed''
    cases frames' with
    | cons f rest => cases waits f rfl
    | nil =>
      cases around
      refine ⟨rfl, vs, ?_, rendered' 1 (.inl (Nat.le_refl 1))⟩
      rwa [same] at struck

end Built

/-! ### Tokens -/

theorem unaryOperator?_inv {op : UnaryOp} (found : unaryOperator? l = some op) :
    l.token = op.token ∧ (op ≠ .not → l.beforeOperand = true) := by
  have marked : ∀ op' : UnaryOp, l.token = op'.token → (if l.beforeOperand then some op' else none) = some op →
      l.token = op.token ∧ (op ≠ .not → l.beforeOperand = true) := by
    intro op' is found
    split at found
    · next before =>
      cases found
      exact ⟨is, fun _ => before⟩
    · cases found
  unfold unaryOperator? at found
  split at found
  · next is =>
    cases found
    exact ⟨is, fun other => absurd rfl other⟩
  · next is => exact marked .neg is found
  · next is => exact marked .deref is found
  · next is => exact marked .ref is found
  · cases found

theorem innerOperator?_inv {op : InnerOperator} (found : innerOperator? l = some op) (other : unaryOperator? l = none)
    (marked : l.beforeOperand = true → l.token.isAmbiguous = true) :
    l.token = op.token ∧ ∀ binary, op = .binary binary → l.beforeOperand = false := by
  unfold innerOperator? at found
  split at found
  · next op' is =>
    cases found
    refine ⟨is, fun _ _ => eq_false_of_ne_true fun before => ?_⟩
    have ambiguous := marked before
    simp only [unaryOperator?, is, before, if_true] at other
    rw [is] at ambiguous
    unfold Token.isAmbiguous at ambiguous
    split at ambiguous <;> simp_all
  · next op' is =>
    cases found
    exact ⟨is, nofun⟩
  · cases found

/-- A token that is no operand is an operator. -/
theorem Built.operator {fault : ParseFault} (built : Built declared s done)
    (marked : l.beforeOperand = true → l.token.isAmbiguous = true) (names : σ.find? = declared)
    (pushed : (match unaryOperator? l with
      | some op => pushUnary s l.line op
      | none =>
        match innerOperator? l with
        | some op => pushInner s l.line op
        | none => failParse l.line fault).run σ = .ok (s', σ')) : σ' = σ ∧ Built declared s' (done ++ [l]) := by
  cases unary : unaryOperator? l with
  | some op =>
    rw [unary] at pushed
    obtain ⟨token, before⟩ := unaryOperator?_inv unary
    exact built.unary token before pushed
  | none =>
    rw [unary] at pushed
    cases inner : innerOperator? l with
    | some op =>
      rw [inner] at pushed
      obtain ⟨token, between⟩ := innerOperator?_inv inner unary marked
      exact built.inner token between names pushed
    | none =>
      rw [inner] at pushed
      cases pushed

theorem Built.token (built : Built declared s done) (marked : l.beforeOperand = true → l.token.isAmbiguous = true)
    (names : σ.find? = declared) (pushed : (pushToken s l).run σ = .ok (s', σ')) :
    σ' = σ ∧ Built declared s' (done ++ [l]) := by
  have literal : ∀ {e : Expr}, l.token.Literal e.tree → (pushOperand s l e).run σ = .ok (s', σ') →
      σ' = σ ∧ Built declared s' (done ++ [l]) :=
    fun is pushed => built.operand (fun _ => .literal is) (.token l) pushed
  unfold pushToken at pushed
  cases is : l.token with
  | int value =>
    rw [is] at pushed
    dsimp only at pushed
    split at pushed
    · next fits => exact literal (by rw [is, Expr.tree]; exact .int fits) pushed
    · cases pushed
  | decimal text =>
    rw [is] at pushed
    exact literal (by rw [is, Expr.tree]; exact .decimal) pushed
  | char value =>
    rw [is] at pushed
    exact literal (by rw [is, Expr.tree]; exact .char) pushed
  | keyword word =>
    rw [is] at pushed
    cases word with
    | nullWord => exact literal (by rw [is, Expr.tree]; exact .null) pushed
    | _ => exact built.operator marked names pushed
  | _ =>
    rw [is] at pushed
    exact built.operator marked names pushed

/-! ### Names -/

theorem variableOperand_inv {line : Nat} {name : String} (token : l.token = .ident name) (names : σ.find? = declared)
    (ran : (variableOperand line name).run σ = .ok (e, σ')) :
    σ'.find? = declared ∧ ∀ k, Renders declared k [l] e.tree := by
  subst names
  unfold variableOperand at ran
  rw [run_get_bind] at ran
  split at ran
  · cases ran
  · cases ran
  · next symbol value known =>
    cases ran
    refine ⟨find?_touch σ name, fun k => ?_⟩
    rw [Expr.tree]
    exact .var token known fun signature is => value signature symbol.line (by rw [← is])

/-- Behind an operand, the other tokens are parsed. -/
theorem Built.after_operand {line : Nat} (built : Built declared s done)
    (rendered : ∀ k, Renders declared k us right.tree) (struck : Struck vs us)
    (ran : (pushOperand s l right >>= parseSpine line tokens).run σ = .ok (e, σ')) :
    ∃ s', Built declared s' (done ++ vs) ∧ (parseSpine line tokens s').run σ = .ok (e, σ') := by
  obtain ⟨s', mid, pushed, later⟩ := run_bind_inv ran
  obtain ⟨rfl, built'⟩ := built.operand rendered struck pushed
  exact ⟨s', built', later⟩

theorem Built.after_variable {line : Nat} {name : String} (built : Built declared s done)
    (token : l.token = .ident name) (names : σ.find? = declared)
    (ran : (variableOperand l.line name >>= fun x => pushOperand s l x >>= parseSpine line tokens).run σ =
      .ok (e, σ')) : ∃ s' mid, Built declared s' (done ++ [l]) ∧ mid.find? = declared ∧
      (parseSpine line tokens s').run mid = .ok (e, σ') := by
  obtain ⟨x, mid, read, later⟩ := run_bind_inv ran
  obtain ⟨names', rendered⟩ := variableOperand_inv token names read
  obtain ⟨s', built', later⟩ := built.after_operand rendered (.token l) later
  exact ⟨s', mid, built', names', later⟩

theorem parameterCount_inv {line count : Nat} {name : String} (names : σ.find? = declared)
    (ran : (parameterCount line name).run σ = .ok (count, σ')) :
    σ' = σ ∧ ∃ signature line, declared name = some ⟨.function signature, line⟩ ∧ signature.params.length = count := by
  subst names
  unfold parameterCount at ran
  rw [run_get_bind] at ran
  split at ran
  · cases ran
  · next signature line known =>
    cases ran
    exact ⟨rfl, signature, line, known, rfl⟩
  · cases ran

theorem indexCount_inv {line count : Nat} {name : String} (names : σ.find? = declared)
    (ran : (indexCount line name).run σ = .ok (count, σ')) : σ' = σ ∧ declared.indices? name = some count := by
  subst names
  unfold indexCount at ran
  rw [run_get_bind] at ran
  unfold Declarations.indices?
  split at ran
  · cases ran
  · next known =>
    cases ran
    rw [known]
    exact ⟨rfl, rfl⟩
  · next known =>
    split at ran
    · next pointer =>
      cases ran
      rw [known]
      exact ⟨rfl, if_pos pointer⟩
    · cases ran
  · cases ran

/-! ### Cuts -/

/-- The bracket that closes an open one is of its kind. -/
theorem closer_of_findClose {opener : Lexeme} {depth : Nat} {enclosed : Enclosed}
    (found : findClose opener depth tokens = .ok enclosed) :
    ∃ b, opener.token = .opening b ∧ enclosed.closer.token = .closing b := by
  induction tokens generalizing depth enclosed with
  | nil => cases found
  | cons l rest ih =>
    have step : ∀ depth, (findClose opener depth rest).map (Enclosed.cons l) = .ok enclosed →
        ∃ b, opener.token = .opening b ∧ enclosed.closer.token = .closing b := by
      intro depth mapped
      cases inner : findClose opener depth rest with
      | error error =>
        rw [inner] at mapped
        cases mapped
      | ok e =>
        rw [inner] at mapped
        cases mapped
        exact @ih _ e inner
    unfold findClose at found
    split at found
    · exact step _ found
    · next b is =>
      split at found
      · split at found
        · next kind =>
          cases found
          exact ⟨b, kind, is⟩
        · cases found
      · exact step _ found
    · exact step _ found

/-- The first of several clauses ends at a separator, and the others are cut from what is behind it. -/
theorem splitClauses_inv {separator : Token} {endLine depth : Nat} {c next : Clause} {rest : List Clause}
    (cut : splitClauses separator endLine depth tokens = c :: next :: rest) :
    ∃ l behind, tokens = c.tokens ++ l :: behind ∧ l.token = separator ∧
      splitClauses separator endLine 0 behind = next :: rest := by
  induction tokens generalizing depth c with
  | nil => cases cut
  | cons l tokens ih =>
    rw [splitClauses] at cut
    split at cut
    · next ends =>
      obtain ⟨rfl, others⟩ := List.cons.inj cut
      rw [ends.2] at others
      exact ⟨l, tokens, rfl, ends.1, others⟩
    · cases others : splitClauses separator endLine (depthAfter depth l.token) tokens with
      | nil => exact absurd others (splitClauses_ne_nil _ _ _ _)
      | cons c' cs =>
        rw [others] at cut
        obtain ⟨rfl, rfl⟩ := List.cons.inj cut
        obtain ⟨l', behind, rfl, separates, cut'⟩ := ih others
        exact ⟨l', behind, rfl, separates, cut'⟩

theorem splitClauses_single {separator : Token} {endLine depth : Nat} {c : Clause}
    (cut : splitClauses separator endLine depth tokens = [c]) : c.tokens = tokens := by
  induction tokens generalizing depth c with
  | nil =>
    cases cut
    rfl
  | cons l tokens ih =>
    rw [splitClauses] at cut
    split at cut
    · exact absurd (List.cons.inj cut).2 (splitClauses_ne_nil _ _ _ _)
    · cases others : splitClauses separator endLine (depthAfter depth l.token) tokens with
      | nil => exact absurd others (splitClauses_ne_nil _ _ _ _)
      | cons c' cs =>
        rw [others] at cut
        obtain ⟨rfl, rfl⟩ := List.cons.inj cut
        exact congrArg (l :: ·) (ih others)

theorem findIndices_nil {after : List Lexeme} (found : findIndices tokens = ⟨[], .ok after⟩) : after = tokens := by
  rw [findIndices.eq_def] at found
  split at found
  · cases found
    rfl
  · split at found
    · split at found <;> cases found
    · cases found
      rfl

theorem findIndices_ne_nil {next : Lexeme} (behind : List Lexeme) {after : List Lexeme}
    (opens : next.token = .opening .square) (none : (findIndices (next :: behind)).clauses = []) :
    (findIndices (next :: behind)).after ≠ .ok after := by
  intro found
  rw [findIndices.eq_def] at none found
  simp only [opens, if_true] at none found
  split at none
  · next failed =>
    split at found
    · cases found
    · next closed =>
      cases failed.symm.trans closed
  · cases none

/-- The first of several indices stands in brackets, and the others are found behind it. -/
theorem findIndices_cons {c : Clause} {rest : List Clause} {after : List Lexeme}
    (found : findIndices tokens = ⟨c :: rest, .ok after⟩) : ∃ l r behind,
      tokens = l :: (c.tokens ++ r :: behind) ∧ l.token = .opening .square ∧ r.token = .closing .square ∧
        findIndices behind = ⟨rest, .ok after⟩ := by
  rw [findIndices.eq_def] at found
  split at found
  · cases found
  · next l tokens =>
    split at found
    · next opens =>
      split at found
      · cases found
      · next enclosed closed =>
        obtain ⟨b, is, closes⟩ := closer_of_findClose closed
        cases opens.symm.trans is
        cases behind : findIndices enclosed.after
        rw [behind] at found
        cases found
        exact ⟨l, enclosed.closer, enclosed.after, by rw [← findClose_eq closed], opens, closes, behind⟩
    · cases found

/-! ### Expressions -/

theorem RendersIndices.index {n : Nat} {name : String} {es : List Expr}
    (indices : RendersIndices declared ts (Expr.trees es)) (token : l.token = .ident name)
    (known : declared.indices? name = some es.length) (nonempty : es ≠ []) :
    Renders declared n (l :: ts) (.index name (Expr.trees es)) := by
  cases es with
  | nil => exact absurd rfl nonempty
  | cons e es => exact .index token (by rw [known, Expr.length_trees, List.length_cons]) indices

mutual

/-- Tokens that are parsed as an expression render its tree, once empty pairs of parentheses are struck out. -/
theorem parseExpr_inv {line : Nat} {tokens : List Lexeme} {σ σ' : Scopes} {e : Expr} (marked : Marked tokens)
    (names : σ.find? = declared) (ran : (parseExpr line tokens).run σ = .ok (e, σ')) :
    σ'.find? = declared ∧ Accepted declared tokens e.tree := by
  rw [parseExpr] at ran
  split at ran
  · cases ran
  · exact parseSpine_inv .empty marked names ran
termination_by 2 * tokens.length + 1

theorem parseSpine_inv {line : Nat} {tokens done : List Lexeme} {s : Spine} {σ σ' : Scopes} {e : Expr}
    (built : Built declared s done) (marked : Marked tokens) (names : σ.find? = declared)
    (ran : (parseSpine line tokens s).run σ = .ok (e, σ')) :
    σ'.find? = declared ∧ Accepted declared (done ++ tokens) e.tree := by
  match tokens with
  | [] =>
    rw [parseSpine] at ran
    obtain ⟨rfl, renders⟩ := built.finishes names ran
    rw [List.append_nil]
    exact ⟨names, renders⟩
  | l :: rest =>
    have tail : Marked rest := marked.of_subset (List.subset_cons_self _ _)
    -- every step takes in a part of the tokens, and the others are parsed from what it leaves
    have onward : ∀ (vs : List Lexeme) {after : List Lexeme} {s' : Spine} {mid : Scopes}, l :: rest = vs ++ after →
        after.length ≤ rest.length → Built declared s' (done ++ vs) → mid.find? = declared →
        (parseSpine line after s').run mid = .ok (e, σ') →
        σ'.find? = declared ∧ Accepted declared (done ++ l :: rest) e.tree := by
      intro vs after s' mid cut fewer built' names' later
      have marked' : Marked after := marked.of_subset (by rw [cut]; exact List.subset_append_right _ _)
      rw [cut, ← List.append_assoc]
      exact parseSpine_inv built' marked' names' later
    rw [parseSpine] at ran
    split at ran
    · next token =>
      obtain ⟨s', mid, opened, later⟩ := run_bind_inv ran
      obtain ⟨rfl, built'⟩ := built.opens token opened
      exact onward [l] rfl (Nat.le_refl _) built' names later
    · next token =>
      obtain ⟨s', mid, closed, later⟩ := run_bind_inv ran
      obtain ⟨rfl, built'⟩ := built.closes token names closed
      exact onward [l] rfl (Nat.le_refl _) built' names later
    · next name token =>
      rcases whole : rest with _ | ⟨next, behind⟩
      · rw [whole] at ran onward
        obtain ⟨s', mid, built', names', later⟩ := built.after_variable token names ran
        exact onward [l] rfl (Nat.le_refl _) built' names' later
      · have number := congrArg List.length whole
        rw [whole] at ran tail onward
        dsimp only at ran
        split at ran
        · next opens =>
          obtain ⟨count, mid, counted, ran₁⟩ := run_bind_inv ran
          obtain ⟨rfl, signature, line', known, arity⟩ := parameterCount_inv names counted
          split at ran₁
          · cases ran₁
          · next enclosed found =>
            have cut := findClose_eq found
            have length := findClose_length found
            have size := clausesSize_splitClauses .comma enclosed.closer.line 0 enclosed.inside
            obtain ⟨b, is, closes⟩ := closer_of_findClose found
            cases opens.symm.trans is
            obtain ⟨args, mid', parsed, ran₂⟩ := run_bind_inv ran₁
            have inside : Marked enclosed.inside := tail.of_subset fun t member => by simp [cut, member]
            obtain ⟨names', us, struck, rendered⟩ := parseArguments_inv rfl inside names parsed
            split at ran₂
            · next same =>
              have call : ∀ k, Renders declared k (l :: (next :: us ++ [enclosed.closer]))
                  (Expr.call l.line name args).tree := fun k => by
                rw [Expr.tree]
                exact .call token known opens rendered (by rw [Expr.length_trees, same, arity]) closes
              obtain ⟨s', built', later⟩ := built.after_operand call (struck.bracketed (by rw [opens]; rfl) l) ran₂
              exact onward _ (by simp [cut]) (by simp only [List.length_cons]; omega) built' names' later
            · cases ran₂
        · next opens =>
          obtain ⟨count, mid, counted, ran₁⟩ := run_bind_inv ran
          obtain ⟨rfl, known⟩ := indexCount_inv names counted
          obtain ⟨indices, mid', parsed, ran₂⟩ := run_bind_inv ran₁
          split at ran₂
          · cases ran₂
          · next after found =>
            have size := clausesSize_findIndices (next :: behind)
            have length := findIndices_length found
            obtain ⟨names', vs, us, cut, struck, rendered, count⟩ :=
              parseClauses_inv (congrArg (Indices.mk _) found) tail names parsed
            have nonempty : indices ≠ [] := fun none => findIndices_ne_nil behind opens
              (List.eq_nil_of_length_eq_zero (by rw [← count, none]; rfl)) found
            split at ran₂
            · next same =>
              obtain ⟨occurrence, mid'', touched, ran₃⟩ := run_bind_inv ran₂
              have element : ∀ k, Renders declared k (l :: us) (Expr.index l.line name occurrence indices).tree := by
                intro k
                rw [Expr.tree]
                exact rendered.index token (by rw [known, same]) nonempty
              cases touched
              obtain ⟨s', built', later⟩ := built.after_operand element (struck (.token l)) ran₃
              exact onward (l :: vs) (by simp [cut]) (by omega) built' ((find?_touch mid' name).trans names') later
            · cases ran₂
        · obtain ⟨s', mid, built', names', later⟩ := built.after_variable token names ran
          exact onward [l] rfl (Nat.le_refl _) built' names' later
    · obtain ⟨s', mid, pushed, later⟩ := run_bind_inv ran
      obtain ⟨rfl, built'⟩ := built.token (marked l List.mem_cons_self) names pushed
      exact onward [l] rfl (Nat.le_refl _) built' names later
termination_by 2 * tokens.length
decreasing_by
  all_goals
    simp only [List.length_cons] at *
    omega

theorem parseArguments_inv {line endLine : Nat} {tokens : List Lexeme} {clauses : List Clause} {σ σ' : Scopes}
    {args : List Expr} (cut : splitClauses .comma endLine 0 tokens = clauses) (marked : Marked tokens)
    (names : σ.find? = declared) (ran : (parseArguments line clauses).run σ = .ok (args, σ')) :
    σ'.find? = declared ∧ ∃ us, Struck tokens us ∧ RendersArguments declared us (Expr.trees args) := by
  match clauses with
  | [] => exact absurd cut (splitClauses_ne_nil _ _ _ _)
  | [c] =>
    rw [parseArguments] at ran
    have whole := splitClauses_single cut
    split at ran
    · next nothing =>
      cases ran
      rw [← whole, List.isEmpty_iff.1 nothing]
      exact ⟨names, [], .nil, .none⟩
    · obtain ⟨arg, mid, parsed, ran⟩ := run_bind_inv ran
      cases ran
      subst whole
      obtain ⟨names', us, struck, rendered⟩ := parseExpr_inv marked names parsed
      exact ⟨names', us, struck, .one rendered⟩
  | c :: next :: rest =>
    rw [parseArguments] at ran
    obtain ⟨l, behind, whole, separates, cut'⟩ := splitClauses_inv cut
    subst whole
    obtain ⟨arg, mid, parsed, ran⟩ := run_bind_inv ran
    obtain ⟨args, mid', parsed', ran⟩ := run_bind_inv ran
    obtain ⟨names₁, us, struck, rendered⟩ := parseExpr_inv
      (marked.of_subset (List.subset_append_left _ _)) names parsed
    obtain ⟨names₂, vs, struck', rendered'⟩ := parseArguments_inv cut'
      (marked.of_subset fun t member => by simp [member]) names₁ parsed'
    split at ran
    · cases ran
    · next others =>
      cases ran
      cases args with
      | nil => exact absurd rfl others
      | cons second args =>
        have joined := (struck.keep l).append struck' (Struck.free_of_last (by rw [separates]; rfl))
        simp only [List.append_assoc, List.singleton_append] at joined
        exact ⟨names₂, _, joined, .more rendered separates rendered'⟩
termination_by 2 * clausesSize clauses
decreasing_by
  all_goals
    simp only [clausesSize]
    omega

theorem parseClauses_inv {tokens after : List Lexeme} {clauses : List Clause} {σ σ' : Scopes} {es : List Expr}
    (found : findIndices tokens = ⟨clauses, .ok after⟩) (marked : Marked tokens) (names : σ.find? = declared)
    (ran : (parseClauses clauses).run σ = .ok (es, σ')) :
    σ'.find? = declared ∧ ∃ vs us, tokens = vs ++ after ∧
      (∀ {done ts : List Lexeme}, Struck done ts → Struck (done ++ vs) (ts ++ us)) ∧
      RendersIndices declared us (Expr.trees es) ∧ es.length = clauses.length := by
  match clauses with
  | [] =>
    rw [parseClauses] at ran
    cases ran
    exact ⟨names, [], [], (findIndices_nil found).symm, fun struck => by simpa using struck, .none, rfl⟩
  | c :: rest =>
    rw [parseClauses] at ran
    obtain ⟨l, r, behind, whole, opens, closes, found'⟩ := findIndices_cons found
    subst whole
    obtain ⟨index, mid, parsed, ran⟩ := run_bind_inv ran
    obtain ⟨indices, mid', parsed', ran⟩ := run_bind_inv ran
    cases ran
    obtain ⟨names₁, us, struck, rendered⟩ := parseExpr_inv
      (marked.of_subset fun t member => by simp [member]) names parsed
    obtain ⟨names₂, vs, ws, rfl, struck', rendered', counted⟩ := parseClauses_inv found'
      (marked.of_subset fun t member => by simp [member]) names₁ parsed'
    refine ⟨names₂, l :: c.tokens ++ r :: vs, l :: us ++ r :: ws, by simp, fun front => ?_,
      .more opens rendered closes rendered', congrArg (· + 1) counted⟩
    have first := ((front.keep l).append struck (Struck.free_of_last (by rw [opens]; rfl))).keep r
    simpa using struck' first
termination_by 2 * clausesSize clauses
decreasing_by
  all_goals
    simp only [clausesSize]
    omega

end

end Parser

/-! ### Sources -/

theorem marked_markFrom (afterOperand : Bool) (tokens : List Lexeme) : Marked (Lexer.markFrom afterOperand tokens) := by
  induction tokens generalizing afterOperand with
  | nil => nofun
  | cons l rest ih =>
    rw [Lexer.markFrom]
    refine List.forall_mem_cons.2 ⟨fun before => ?_, ih _⟩
    exact (Bool.and_eq_true_iff.1 before).1

theorem marked_fold? {sign number folded : Lexeme} (found : Lexer.fold? sign number = some folded)
    (marked : number.beforeOperand = true → number.token.isAmbiguous = true) :
    folded.beforeOperand = true → folded.token.isAmbiguous = true := by
  unfold Lexer.fold? at found
  split at found
  · obtain ⟨token, turned, rfl⟩ := Option.map_eq_some_iff.1 found
    intro before
    have ambiguous := marked before
    unfold Lexer.negated? at turned
    split at turned
    · next is =>
      rw [is] at ambiguous
      cases ambiguous
    · next is =>
      rw [is] at ambiguous
      cases ambiguous
    · cases turned
  · cases found

theorem marked_foldNegatives (marked : Marked tokens) : Marked (Lexer.foldNegatives tokens) := by
  fun_induction Lexer.foldNegatives tokens with
  | case1 sign number rest folded found ih =>
    exact List.forall_mem_cons.2 ⟨marked_fold? found (marked number (by simp)),
      ih (marked.of_subset fun t member => by simp [member])⟩
  | case2 sign number rest found ih =>
    exact List.forall_mem_cons.2 ⟨marked sign List.mem_cons_self, ih (marked.of_subset (List.subset_cons_self _ _))⟩
  | case3 => exact marked

/-- The tokens of a source are marked so. -/
theorem marked_tokenize {source : String} (cut : tokenize source = .ok tokens) : Marked tokens := by
  unfold tokenize at cut
  split at cut
  · cases cut
    exact marked_foldNegatives (marked_markFrom _ _)
  · cases cut

/-- What is parsed as an expression renders its tree, but for pairs of parentheses that have nothing between them
and stand where no operand ends. What names are declared as stays. -/
theorem parseExpr_accepts {line : Nat} (marked : Marked tokens) (ran : (parseExpr line tokens).run σ = .ok (e, σ')) :
    σ'.find? = σ.find? ∧ Accepted σ.find? tokens e.tree := parseExpr_inv marked rfl ran

/-- Tokens without such pairs are parsed as a tree exactly if they render it, and otherwise there is an error. -/
theorem parses_iff_renders {t : Tree} (marked : Marked tokens) (solid : Solid tokens) (line : Nat) :
    (∃ e σ', (parseExpr line tokens).run σ = .ok (e, σ') ∧ e.tree = t) ↔ Renders σ.find? 1 tokens t := by
  constructor
  · rintro ⟨e, σ', ran, rfl⟩
    obtain ⟨-, us, struck, renders⟩ := parseExpr_accepts marked ran
    rwa [struck.eq_of_solid solid]
  · intro renders
    obtain ⟨e, σ', ran, -, same⟩ := renders.brings.run_parseExpr renders.nonempty line rfl
    exact ⟨e, σ', ran, same⟩

/-- The parentheses of `() 1` are passed over. -/
example :
    let word (token : Token) : Lexeme := ⟨token, 1, 0, 0, false⟩
    (parseExpr 1 [word (.opening .round), word (.closing .round), word (.int 1)]).run Scopes.root =
      .ok (.int 1 1, Scopes.root) := by
  simp only [parseExpr, parseSpine]
  rfl

end SmallC
