import SmallC.Proofs.Source.Pieces

/-!
Layout and comments between tokens. Wherever a lexeme of a source starts, a run of spaces, tabs and newlines can be put,
or a comment between blanks, and the source has the same tokens as before, each on the same side of its operand. What is
in front of the separator is cut as it was, as a token ends in front of layout where it ended before; what is behind is
cut as it was, further on; and a minus sign is still directly in front of its number, as that number is no lexeme of its
own.
-/
namespace SmallC

/-- The place so many bytes and lines further on. -/
def Place.moved (bytes lines : Nat) (p : Place) : Place := ⟨p.offset + bytes, p.line + lines⟩

/-- The lexeme so many bytes and lines further on. -/
def Lexeme.moved (bytes lines : Nat) (l : Lexeme) : Lexeme :=
  { l with line := l.line + lines, start := l.start + bytes, stop := l.stop + bytes }

namespace Place

variable (p : Place) (cs ds : List Char) (bytes lines : Nat)

theorem advance_append : p.advance (cs ++ ds) = (p.advance cs).advance ds := List.foldl_append

theorem advance_moved : (p.moved bytes lines).advance cs = (p.advance cs).moved bytes lines := by
  induction cs generalizing p with
  | nil => rfl
  | cons c cs ih =>
    have next : (p.moved bytes lines).next c = (p.next c).moved bytes lines := by
      simp only [Place.next, moved, Place.mk.injEq]
      constructor
      · omega
      · split <;> omega
    exact (congrArg (·.advance cs) next).trans (ih (p.next c))

theorem advance_eq_moved : p.advance cs = p.moved (String.utf8Len cs) (cs.count '\n') := by
  induction cs generalizing p with
  | nil => rfl
  | cons c cs ih =>
    refine (ih (p.next c)).trans ?_
    simp only [Place.next, moved, Place.mk.injEq, String.utf8Len_cons, List.count_cons, beq_iff_eq]
    constructor
    · omega
    · split <;> omega

theorem le_offset_advance : p.offset ≤ (p.advance cs).offset := by
  rw [advance_eq_moved]
  exact Nat.le_add_right _ _

end Place

namespace Lexer

variable {place : Place} {c : Char} {cs own t rest gap separator : List Char} {piece : Piece} {token : Token}
  {ls before after marked : List Lexeme} {l x sign number : Lexeme} {bytes lines : Nat}

/-- What stands between tokens and is none: blanks, or a comment between blanks. -/
inductive Separator : List Char → Prop where
  | blanks {cs : List Char} (some : cs ≠ []) (all : ∀ c ∈ cs, c = ' ' ∨ c = '\t' ∨ c = '\n') : Separator cs
  | block {text : List Char} (inside : ¬ ['*', '/'] <:+: text) :
    Separator (' ' :: '/' :: '*' :: text ++ ['*', '/', ' '])
  | line {text : List Char} (inside : '\n' ∉ text) : Separator (' ' :: '/' :: '/' :: text ++ ['\n'])

/-! ### Cuts -/

/-- The lexemes of a text from a place on, piece by piece. -/
inductive Cuts : Place → List Char → List Lexeme → Prop where
  | nil (place : Place) : Cuts place [] []
  | skip {place : Place} {c : Char} {own t : List Char} {ls : List Lexeme}
    (found : recognise? c (own ++ t) = some (.skip own.length)) (rest : Cuts (place.advance (c :: own)) t ls) :
    Cuts place (c :: (own ++ t)) ls
  | token {place : Place} {c : Char} {own t : List Char} {ls : List Lexeme} {token : Token}
    (found : recognise? c (own ++ t) = some ⟨some token, own.length⟩)
    (rest : Cuts (place.advance (c :: own)) t ls) :
    Cuts place (c :: (own ++ t))
      (⟨token, place.line, place.offset, (place.advance (c :: own)).offset, false⟩ :: ls)

theorem scan_append (place : Place) (found : recognise? c (own ++ t) = some piece) (extra : piece.extra = own.length) :
    scan place (c :: (own ++ t)) = (scan (place.advance (c :: own)) t).map fun lexemes =>
      match piece.token with
      | none => lexemes
      | some token => ⟨token, place.line, place.offset, (place.advance (c :: own)).offset, false⟩ :: lexemes := by
  rw [scan, found]
  simp only [extra, List.take_left, List.drop_left]
  cases scan (place.advance (c :: own)) t with
  | error e => rfl
  | ok lexemes => cases piece.token <;> rfl

theorem scan_of_cuts (cuts : Cuts place cs ls) : scan place cs = .ok ls := by
  induction cuts with
  | nil => rw [scan]
  | skip found _ ih =>
    rw [scan_append _ found rfl, ih]
    rfl
  | token found _ ih =>
    rw [scan_append _ found rfl, ih]
    rfl

theorem cuts_of_scan (scanned : scan place cs = .ok ls) : Cuts place cs ls := by
  induction place, cs using scan.induct generalizing ls with
  | case1 =>
    rw [scan] at scanned
    cases scanned
    exact .nil _
  | case2 place c rest found =>
    rw [scan, found] at scanned
    cases scanned
  | case3 place c rest piece found behind =>
    rename_i ih
    obtain ⟨own, t, rfl, kind⟩ := found_of_recognise? found
    have extra : piece.extra = own.length := by cases kind <;> rfl
    rw [scan_append place found extra] at scanned
    simp only [behind, extra, List.take_left, List.drop_left] at ih
    cases later : scan (place.advance (c :: own)) t with
    | error e =>
      rw [later] at scanned
      cases scanned
    | ok lexemes =>
      rw [later] at scanned
      cases kind with
      | layout | line | block =>
        cases scanned
        exact .skip found (ih later)
      | token =>
        cases scanned
        exact .token found (ih later)

theorem Cuts.moved (cuts : Cuts place cs ls) (bytes lines : Nat) :
    Cuts (place.moved bytes lines) cs (ls.map (Lexeme.moved bytes lines)) := by
  induction cuts with
  | nil => exact .nil _
  | skip found _ ih =>
    rw [← Place.advance_moved] at ih
    exact .skip found ih
  | token found _ ih =>
    rw [← Place.advance_moved] at ih
    have whole := Cuts.token found ih
    rw [Place.advance_moved] at whole
    exact whole

/-! ### Separators -/

theorem recognise?_layout (layout : isLayout c = true) (rest : List Char) :
    recognise? c rest = some (.skip (rest.takeWhile isLayout).length) := by
  unfold recognise?
  rw [if_pos layout]

/-- Layout in front of a text joins that at its start. -/
theorem Cuts.layout_cons (layout : isLayout c = true) (cuts : Cuts (place.next c) t ls) : Cuts place (c :: t) ls := by
  have alone : (t.takeWhile isLayout).length = 0 → Cuts place (c :: t) ls := by
    intro none
    have found := recognise?_layout layout t
    rw [none] at found
    exact @Cuts.skip place c [] t ls found cuts
  cases cuts with
  | nil => exact alone rfl
  | @skip _ d own t _ found rest =>
    by_cases more : isLayout d = true
    · have length := congrArg Piece.extra (Option.some.inj ((recognise?_layout more (own ++ t)).symm.trans found))
      have longer := recognise?_layout layout (d :: (own ++ t))
      rw [List.takeWhile_cons_of_pos more, List.length_cons] at longer
      refine @Cuts.skip place c (d :: own) t ls (longer.trans ?_) rest
      exact congrArg (fun n => some (Piece.skip (n + 1))) length
    · exact alone (by rw [List.takeWhile_cons_of_neg more]; rfl)
  | @token _ d own t _ token found rest =>
    by_cases more : isLayout d = true
    · rw [recognise?_layout more] at found
      cases found
    · exact alone (by rw [List.takeWhile_cons_of_neg more]; rfl)

theorem Cuts.layout_append (layout : ∀ c ∈ gap, isLayout c = true) (cuts : Cuts (place.advance gap) t ls) :
    Cuts place (gap ++ t) ls := by
  induction gap generalizing place with
  | nil => exact cuts
  | cons c gap ih =>
    exact .layout_cons (layout c List.mem_cons_self) (ih (fun d member => layout d (List.mem_cons_of_mem c member)) cuts)

/-- A separator starts with layout, and what is behind it is cut as if it were not there. -/
theorem Separator.starts (separates : Separator separator) : ∃ c ∈ separator.head?, isLayout c = true := by
  cases separates with
  | @blanks cs some all =>
    cases separator with
    | nil => exact absurd rfl some
    | cons c cs =>
      refine ⟨c, rfl, ?_⟩
      rcases all c List.mem_cons_self with rfl | rfl | rfl <;> rfl
  | block | line => exact ⟨' ', rfl, rfl⟩

theorem Separator.cuts (separates : Separator separator) (cuts : Cuts (place.advance separator) t ls) :
    Cuts place (separator ++ t) ls := by
  cases separates with
  | @blanks cs some all =>
    refine .layout_append (fun c member => ?_) cuts
    rcases all c member with rfl | rfl | rfl <;> rfl
  | @block text inside =>
    have found : recognise? '/' (('*' :: text ++ ['*', '/']) ++ ' ' :: t) =
        some (.skip ('*' :: text ++ ['*', '/']).length) := by
      have closed := commentLength?_of_inside inside (' ' :: t)
      rw [recognise?_slash]
      simp only [List.cons_append, List.append_assoc, List.nil_append, closed]
      simp
    have whole : ' ' :: '/' :: '*' :: text ++ ['*', '/', ' '] = [' '] ++ ('/' :: ('*' :: text ++ ['*', '/'])) ++ [' '] := by
      simp
    rw [whole, Place.advance_append, Place.advance_append] at cuts
    rw [whole, List.append_assoc, List.append_assoc]
    exact .layout_cons rfl (.skip found (.layout_cons rfl cuts))
  | @line text inside =>
    have found : recognise? '/' (('/' :: text) ++ '\n' :: t) = some (.skip ('/' :: text).length) := by
      rw [recognise?_slash]
      refine congrArg (fun cs : List Char => some (Piece.skip cs.length)) (takeWhile_staysOnLine ?_ ?_)
      · refine List.forall_mem_cons.2 ⟨rfl, fun d member => decide_eq_true fun same => inside ?_⟩
        rwa [← same]
      · intro d first
        cases first
        rfl
    have whole : ' ' :: '/' :: '/' :: text ++ ['\n'] = [' '] ++ ('/' :: ('/' :: text)) ++ ['\n'] := by simp
    rw [whole, Place.advance_append, Place.advance_append] at cuts
    rw [whole, List.append_assoc, List.append_assoc]
    exact .layout_cons rfl (.skip found (.layout_cons rfl cuts))

/-! ### In front of a lexeme -/

/-- What a piece was found to be does not hang on how it was found. -/
theorem found_of_recognised (found : recognise? c (own ++ t) = some piece) (extra : piece.extra = own.length) :
    Found c own t piece := by
  obtain ⟨own', t', same, kind⟩ := found_of_recognise? found
  have extra' : piece.extra = own'.length := by cases kind <;> rfl
  obtain ⟨rfl, rfl⟩ := List.append_inj same (extra.symm.trans extra')
  exact kind

/-- A text that is cut starts with no point. -/
theorem Cuts.noPoint (cuts : Cuts place t ls) : ∀ c ∈ t.head?, c ≠ '.' := by
  rintro c first rfl
  cases cuts with
  | nil => cases first
  | skip found | token found =>
    cases first
    rw [recognise?_point] at found
    cases found

/-- Where a separator goes between a piece and a later lexeme, what is behind the piece borders on it as before. -/
theorem bordered_separated {passed : List Char} (separates : Separator separator)
    (noPoint : ∀ c ∈ (passed ++ rest).head?, c ≠ '.') : Bordered (passed ++ rest) (passed ++ separator ++ rest) := by
  intro c first
  cases passed with
  | nil =>
    obtain ⟨d, starts, layout⟩ := separates.starts
    obtain ⟨tail, rfl⟩ := List.head?_eq_some_iff.1 starts
    cases first
    exact .inl layout
  | cons d passed =>
    cases first
    exact .inr ⟨rfl, noPoint c rfl⟩

/-- A text at a lexeme: what is in front of it, and that a separator there moves that lexeme and all that follow, and
nothing else. -/
structure SplitAt (place : Place) (cs passed rest : List Char) (before : List Lexeme) (x : Lexeme)
    (after : List Lexeme) : Prop where
  whole : cs = passed ++ rest
  start : (place.advance passed).offset = x.start
  apart : ∀ l ∈ before, l.stop ≤ x.start
  first : ∃ q ∈ rest.head?, isLayout q = false
  separated : ∀ {separator}, Separator separator → Cuts place (passed ++ separator ++ rest)
    (before ++ (x :: after).map (Lexeme.moved (String.utf8Len separator) (separator.count '\n')))

theorem SplitAt.behind_skip {passed : List Char} (found : recognise? c (own ++ t) = some (.skip own.length))
    (split : SplitAt (place.advance (c :: own)) t passed rest before x after) :
    SplitAt place (c :: (own ++ t)) (c :: own ++ passed) rest before x after where
  whole := by rw [split.whole, List.cons_append, List.cons_append, List.append_assoc]
  start := by rw [Place.advance_append, split.start]
  apart := split.apart
  first := split.first
  separated := by
    intro separator separates
    have later := split.separated separates
    rw [List.append_assoc, List.append_assoc, ← List.append_assoc passed]
    obtain ⟨q, first, noLayout⟩ := split.first
    cases found_of_recognised found rfl with
    | layout starts all =>
      exact .layout_append (List.forall_mem_cons.2 ⟨starts, all⟩) later
    | line ends again =>
      -- the end of the line comes before the lexeme, so it is still what follows
      refine .skip (again _ fun d first' => ?_) later
      rw [split.whole] at ends
      cases passed with
      | nil =>
        have newline := ends q first
        rw [newline] at noLayout
        cases noLayout
      | cons e passed => exact ends d first'
    | block again => exact .skip (again _) later

theorem SplitAt.behind_token {passed : List Char} (found : recognise? c (own ++ t) = some ⟨some token, own.length⟩)
    (cuts : Cuts (place.advance (c :: own)) t ls)
    (split : SplitAt (place.advance (c :: own)) t passed rest before x after) :
    SplitAt place (c :: (own ++ t)) (c :: own ++ passed) rest
      (⟨token, place.line, place.offset, (place.advance (c :: own)).offset, false⟩ :: before) x after where
  whole := by rw [split.whole, List.cons_append, List.cons_append, List.append_assoc]
  start := by rw [Place.advance_append, split.start]
  apart := List.forall_mem_cons.2 ⟨split.start ▸ Place.le_offset_advance _ passed, split.apart⟩
  first := split.first
  separated := by
    intro separator separates
    have later := split.separated separates
    rw [List.append_assoc, List.append_assoc, ← List.append_assoc passed]
    have noPoint := cuts.noPoint
    rw [split.whole] at noPoint found
    have kind := found_of_recognised found rfl
    cases kind with
    | token token noLayout again => exact .token (again _ (bordered_separated separates noPoint)) later

/-- Each lexeme of a text splits it. -/
theorem Cuts.splitAt (cuts : Cuts place cs ls) (whole : ls = before ++ x :: after) :
    ∃ passed rest, SplitAt place cs passed rest before x after := by
  induction cuts generalizing before with
  | nil => cases before <;> cases whole
  | skip found cuts ih =>
    obtain ⟨passed, rest, split⟩ := ih whole
    exact ⟨_, rest, split.behind_skip found⟩
  | @token place c own t ls token found cuts ih =>
    cases before with
    | nil =>
      cases whole
      refine ⟨[], c :: (own ++ t), rfl, rfl, (by simp), ⟨c, rfl, ?_⟩, fun {separator} separates => ?_⟩
      · cases found_of_recognised found rfl
        assumption
      · refine separates.cuts ?_
        rw [Place.advance_eq_moved]
        exact (Cuts.token found cuts).moved _ _
    | cons l before =>
      cases whole
      obtain ⟨passed, rest, split⟩ := ih rfl
      exact ⟨_, rest, split.behind_token found cuts⟩

/-! ### Marks and folds -/

/-- Whether an operand ends with the last of some lexemes, or if there is none, before them. -/
def endsAfter (afterOperand : Bool) (ls : List Lexeme) : Bool := ls.foldl (fun _ l => l.token.endsOperand) afterOperand

theorem markFrom_append (afterOperand : Bool) (before after : List Lexeme) :
    markFrom afterOperand (before ++ after) =
      markFrom afterOperand before ++ markFrom (endsAfter afterOperand before) after := by
  induction before generalizing afterOperand with
  | nil => rfl
  | cons l before ih => exact congrArg (List.cons _) (ih l.token.endsOperand)

theorem markFrom_moved (afterOperand : Bool) (ls : List Lexeme) :
    markFrom afterOperand (ls.map (Lexeme.moved bytes lines)) =
      (markFrom afterOperand ls).map (Lexeme.moved bytes lines) := by
  induction ls generalizing afterOperand with
  | nil => rfl
  | cons l ls ih => exact congrArg (List.cons _) (ih l.token.endsOperand)

/-- A split of marked lexemes is one of the lexemes. -/
theorem split_of_markFrom {afterOperand : Bool} (split : markFrom afterOperand ls = before ++ x :: after) :
    ∃ before' x' after', ls = before' ++ x' :: after' ∧ before = markFrom afterOperand before' ∧
      x :: after = markFrom (endsAfter afterOperand before') (x' :: after') := by
  induction before generalizing afterOperand ls with
  | nil =>
    cases ls with
    | nil => cases split
    | cons l ls => exact ⟨[], l, ls, rfl, rfl, split.symm⟩
  | cons b before ih =>
    cases ls with
    | nil => cases split
    | cons l ls =>
      obtain ⟨head, rest⟩ := List.cons.inj split
      obtain ⟨before', x', after', rfl, rfl, behind⟩ := ih rest
      exact ⟨l :: before', x', after', rfl, by rw [← head]; rfl, behind⟩

theorem mem_markFrom {afterOperand : Bool} (member : l ∈ markFrom afterOperand ls) : ∃ l' ∈ ls, l'.stop = l.stop := by
  induction ls generalizing afterOperand with
  | nil => cases member
  | cons first ls ih =>
    rcases List.mem_cons.1 member with rfl | member
    · exact ⟨first, List.mem_cons_self, rfl⟩
    · obtain ⟨l', member, same⟩ := ih member
      exact ⟨l', List.mem_cons_of_mem _ member, same⟩

/-- A number is no sign. -/
theorem fold?_of_number (folds : fold? sign number = some x) (l : Lexeme) : fold? number l = none := by
  unfold fold? at folds ⊢
  split at folds
  · obtain ⟨turned, negated, -⟩ := Option.map_eq_some_iff.1 folds
    refine if_neg ?_
    rintro ⟨-, minus, -⟩
    rw [minus] at negated
    cases negated
  · cases folds

theorem start_of_fold? (folds : fold? sign number = some x) : x.start = sign.start := by
  unfold fold? at folds
  split at folds
  · obtain ⟨turned, -, rfl⟩ := Option.map_eq_some_iff.1 folds
    rfl
  · cases folds

theorem fold?_moved (sign number : Lexeme) : fold? (sign.moved bytes lines) (number.moved bytes lines) =
    (fold? sign number).map (Lexeme.moved bytes lines) := by
  have same : (sign.moved bytes lines).stop = (number.moved bytes lines).start ↔ sign.stop = number.start :=
    Nat.add_right_cancel_iff
  by_cases joins : sign.beforeOperand ∧ sign.token = .operator .minus ∧ sign.stop = number.start
  · rw [fold?, fold?, if_pos joins, if_pos ⟨joins.1, joins.2.1, same.2 joins.2.2⟩]
    change (negated? number.token).map _ = _
    cases negated? number.token <;> rfl
  · rw [fold?, fold?, if_neg joins, if_neg fun joins' => joins ⟨joins'.1, joins'.2.1, same.1 joins'.2.2⟩]
    rfl

theorem foldNegatives_of_some (folds : fold? sign number = some folded) :
    foldNegatives (sign :: number :: after) = folded :: foldNegatives after := by
  rw [foldNegatives, folds]

theorem foldNegatives_of_none (folds : fold? sign number = none) :
    foldNegatives (sign :: number :: after) = sign :: foldNegatives (number :: after) := by
  rw [foldNegatives, folds]

theorem foldNegatives_moved (ls : List Lexeme) :
    foldNegatives (ls.map (Lexeme.moved bytes lines)) = (foldNegatives ls).map (Lexeme.moved bytes lines) := by
  induction ls using foldNegatives.induct with
  | case1 sign number rest folded folds ih =>
    rw [foldNegatives_of_some folds, List.map_cons, List.map_cons, List.map_cons,
      foldNegatives_of_some (by rw [fold?_moved, folds]; rfl), ih]
  | case2 sign number rest folds ih =>
    rw [foldNegatives_of_none folds, List.map_cons, List.map_cons, List.map_cons,
      foldNegatives_of_none (by rw [fold?_moved, folds]; rfl), ← List.map_cons, ih]
  | case3 ls other =>
    cases ls with
    | nil => rfl
    | cons l ls =>
      cases ls with
      | nil => rfl
      | cons l' ls => exact absurd rfl (other l l' ls)

/-- Lexemes fold apart from those behind, where the last of them is no sign of the next. -/
theorem foldNegatives_append (apart : ∀ l ∈ before.getLast?, fold? l x = none) :
    foldNegatives (before ++ x :: after) = foldNegatives before ++ foldNegatives (x :: after) := by
  induction before using foldNegatives.induct with
  | case1 sign number rest folded folds ih =>
    rw [List.cons_append, List.cons_append, foldNegatives_of_some folds, foldNegatives_of_some folds]
    refine congrArg (List.cons _) (ih fun l last => apart l ?_)
    cases rest with
    | nil => cases last
    | cons l' rest => exact last
  | case2 sign number rest folds ih =>
    rw [List.cons_append, List.cons_append, foldNegatives_of_none folds, foldNegatives_of_none folds]
    exact congrArg (List.cons _) (ih apart)
  | case3 ls other =>
    cases ls with
    | nil => rfl
    | cons l ls =>
      cases ls with
      | nil =>
        rw [List.singleton_append, foldNegatives_of_none (apart l rfl)]
        rfl
      | cons l' ls => exact absurd rfl (other l l' ls)

/-- A lexeme that is left after folding starts where one did before, which is no number with a sign in front. -/
theorem split_of_mem_foldNegatives (member : l ∈ foldNegatives ls) :
    ∃ before x after, ls = before ++ x :: after ∧ x.start = l.start ∧ ∀ b ∈ before.getLast?, fold? b x = none := by
  induction ls using foldNegatives.induct with
  | case1 sign number rest folded folds ih =>
    rw [foldNegatives_of_some folds] at member
    rcases List.mem_cons.1 member with rfl | member
    · exact ⟨[], sign, number :: rest, rfl, (start_of_fold? folds).symm, by simp⟩
    · obtain ⟨before, x, after, rfl, start, apart⟩ := ih member
      refine ⟨sign :: number :: before, x, after, rfl, start, fun b last => ?_⟩
      cases before with
      | nil =>
        cases last
        exact fold?_of_number folds x
      | cons b' before => exact apart b last
  | case2 sign number rest folds ih =>
    rw [foldNegatives_of_none folds] at member
    rcases List.mem_cons.1 member with rfl | member
    · exact ⟨[], l, number :: rest, rfl, rfl, by simp⟩
    · obtain ⟨before, x, after, whole, start, apart⟩ := ih member
      refine ⟨sign :: before, x, after, by rw [whole]; rfl, start, fun b last => ?_⟩
      cases before with
      | nil =>
        cases whole
        cases last
        exact folds
      | cons b' before => exact apart b last
  | case3 ls other =>
    cases ls with
    | nil => cases member
    | cons first ls =>
      cases ls with
      | nil =>
        cases List.mem_singleton.1 member
        exact ⟨[], l, [], rfl, rfl, by simp⟩
      | cons l' ls => exact absurd rfl (other first l' ls)

theorem Separator.utf8Len_pos (separates : Separator separator) : 0 < String.utf8Len separator := by
  obtain ⟨c, starts, -⟩ := separates.starts
  obtain ⟨tail, rfl⟩ := List.head?_eq_some_iff.1 starts
  rw [String.utf8Len_cons]
  exact Nat.add_pos_right _ c.utf8Size_pos

/-- A sign that ends before a number starts is not directly in front of the number further on. -/
theorem fold?_moved_of_le (apart : sign.stop ≤ number.start) (further : 0 < bytes) :
    fold? sign (number.moved bytes lines) = none := by
  refine if_neg ?_
  rintro ⟨-, -, directly⟩
  have further' : (number.moved bytes lines).start = number.start + bytes := rfl
  omega

/-- The tokens of lexemes, each with the side of its operand that it stands on. -/
def sides (ls : List Lexeme) : List (Token × Bool) := ls.map fun l => (l.token, l.beforeOperand)

theorem sides_moved (ls : List Lexeme) : sides (ls.map (Lexeme.moved bytes lines)) = sides ls := List.map_map

/-- Lexemes from the start of one that folding leaves may move on together. -/
theorem sides_foldNegatives_moved (apart : ∀ l ∈ before.getLast?, fold? l x = none)
    (ends : ∀ l ∈ before, l.stop ≤ x.start) (further : 0 < bytes) :
    sides (foldNegatives (before ++ (x :: after).map (Lexeme.moved bytes lines))) =
      sides (foldNegatives (before ++ x :: after)) := by
  have apart' : ∀ l ∈ before.getLast?, fold? l (x.moved bytes lines) = none := fun l last =>
    fold?_moved_of_le (ends l (List.mem_of_getLast? last)) further
  rw [List.map_cons, foldNegatives_append apart', foldNegatives_append apart, ← List.map_cons, foldNegatives_moved]
  unfold sides
  rw [List.map_append, List.map_append]
  exact congrArg (_ ++ ·) (sides_moved _)

end Lexer

open Lexer

theorem tokenize_eq_ok_iff {source : String} {ls : List Lexeme} : tokenize source = .ok ls ↔
    ∃ scanned, Cuts Place.start source.toList scanned ∧ ls = foldNegatives (markFrom false scanned) := by
  unfold tokenize
  constructor
  · intro cut
    split at cut
    · next scanned ran =>
      cases cut
      exact ⟨scanned, cuts_of_scan ran, rfl⟩
    · cases cut
  · rintro ⟨scanned, cuts, rfl⟩
    rw [scan_of_cuts cuts]

/-- Where a lexeme of a source starts, a separator changes neither the tokens nor their order, nor on which side of
their operands they stand. -/
theorem separators_irrelevant {source : String} {ls : List Lexeme} {l : Lexeme} (cut : tokenize source = .ok ls)
    (member : l ∈ ls) : ∃ before behind : String, before ++ behind = source ∧ before.utf8ByteSize = l.start ∧
      ∀ separator : String, Separator separator.toList →
        ∃ ls', tokenize (before ++ separator ++ behind) = .ok ls' ∧ sides ls' = sides ls := by
  obtain ⟨scanned, cuts, rfl⟩ := tokenize_eq_ok_iff.1 cut
  obtain ⟨marked, a, rest, whole, start, apart⟩ := split_of_mem_foldNegatives member
  obtain ⟨before, x, after, rfl, rfl, same⟩ := split_of_markFrom whole
  have start' : x.start = l.start := by
    cases same
    exact start
  obtain ⟨passed, behind, split⟩ := cuts.splitAt rfl
  refine ⟨String.ofList passed, String.ofList behind, ?_, ?_, fun separator separates => ?_⟩
  · rw [← String.ofList_append, ← split.whole, String.ofList_toList]
  · rw [String.utf8ByteSize_ofList, ← start', ← split.start, Place.advance_eq_moved]
    exact (Nat.zero_add _).symm
  · have moved := split.separated separates
    have text : passed ++ separator.toList ++ behind = (String.ofList passed ++ separator ++ String.ofList behind).toList := by
      rw [String.toList_append, String.toList_append, String.toList_ofList, String.toList_ofList]
    rw [text] at moved
    refine ⟨_, tokenize_eq_ok_iff.2 ⟨_, moved, rfl⟩, ?_⟩
    rw [whole, markFrom_append, markFrom_moved, ← same]
    refine sides_foldNegatives_moved apart (fun b member => ?_) separates.utf8Len_pos
    obtain ⟨b', member', stops⟩ := mem_markFrom member
    have ends := split.apart b' member'
    omega

/-- A comment between a minus sign and a negative number does not join the sign with the number. -/
theorem separators_irrelevant_minus : ∃ before behind : String, before ++ behind = "a--5" ∧ before.utf8ByteSize = 2 ∧
    ∃ ls, tokenize (before ++ " /* - **/ " ++ behind) = .ok ls ∧
      sides ls = [(.ident "a", false), (.operator .minus, false), (.int (-5), false)] := by
  have scanned : scan Place.start ['a', '-', '-', '5'] =
      .ok [⟨.ident "a", 1, 0, 1, false⟩, ⟨.operator .minus, 1, 1, 2, false⟩, ⟨.operator .minus, 1, 2, 3, false⟩,
        ⟨.int 5, 1, 3, 4, false⟩] := by
    cbv
  have cut : tokenize "a--5" =
      .ok [⟨.ident "a", 1, 0, 1, false⟩, ⟨.operator .minus, 1, 1, 2, false⟩, ⟨.int (-5), 1, 2, 4, false⟩] :=
    tokenize_eq_ok_iff.2 ⟨_, cuts_of_scan scanned, rfl⟩
  obtain ⟨before, behind, whole, start, separated⟩ := separators_irrelevant cut (.tail _ (.tail _ (.head _)))
  have inside : ¬ ['*', '/'] <:+: [' ', '-', ' ', '*'] := by decide
  have separates : Separator " /* - **/ ".toList := Separator.block inside
  obtain ⟨ls, cut', same⟩ := separated _ separates
  exact ⟨before, behind, whole, start, ls, cut', same⟩

end SmallC
