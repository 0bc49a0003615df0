import Mathlib
import SmallC.Source.Lexer

/-!
Pieces of a source and what stands behind them. A token is found again in front of every text that starts with layout, or
as the text behind it does; a block comment in front of every text; a directive and a line comment in front of the end of
their line. So to recognise a piece takes no more of a text than the piece and the one character behind it.
-/
namespace SmallC.Lexer

variable {c : Char} {own rest t t' : List Char} {piece : Piece} {p : Char → Bool}

/-! ### Borders -/

/-- A text that a token may stand in front of as well as in front of another: it starts with layout, or as the other one
does. No piece starts with a point. -/
def Bordered (t t' : List Char) : Prop := ∀ c ∈ t'.head?, isLayout c = true ∨ c ∈ t.head? ∧ c ≠ '.'

/-- A reader of tokens keeps to what it has read: that is the start of the text, and the reader finds the same in front of
another rest that may border on it. -/
def Settles (read : List Char → Option Piece) : Prop :=
  ∀ rest piece, read rest = some piece → ∃ own t token, rest = own ++ t ∧ piece = ⟨some token, own.length⟩ ∧
    ∀ t', Bordered t t' → read (own ++ t') = some piece

/-- A class of characters that no layout belongs to ends in front of a border where it ended before. -/
theorem Bordered.stops (bordered : Bordered t t') (none : ∀ c, isLayout c = true → p c = false)
    (stops : ∀ c ∈ t.head?, p c = false) : ∀ c ∈ t'.head?, p c = false := by
  intro c first
  rcases bordered c first with layout | ⟨first', -⟩
  · exact none c layout
  · exact stops c first'

theorem takeWhile_append_of_stops {xs : List Char} (all : ∀ c ∈ xs, p c = true) (stops : ∀ c ∈ t.head?, p c = false) :
    (xs ++ t).takeWhile p = xs := by
  rw [List.takeWhile_append_of_pos all]
  cases t with
  | nil => simp
  | cons c t => simp [stops c rfl]

theorem dropWhile_append_of_stops {xs : List Char} (all : ∀ c ∈ xs, p c = true) (stops : ∀ c ∈ t.head?, p c = false) :
    (xs ++ t).dropWhile p = t := by
  rw [List.dropWhile_append_of_pos all]
  cases t with
  | nil => rfl
  | cons c t => simp [stops c rfl]

theorem head?_dropWhile {xs : List Char} (first : c ∈ (xs.dropWhile p).head?) : p c = false := by
  have stops := List.head?_dropWhile_not p xs
  rw [Option.mem_def.1 first] at stops
  exact stops

/-- Layout is none of the characters that tokens are made of, those between quotes apart. -/
theorem layout_cases (layout : isLayout c = true) : c = ' ' ∨ c = '\t' ∨ c = '\r' ∨ c = '\n' ∨ c = '\x0c' := by
  simpa [isLayout, or_assoc] using layout

theorem isDigit_of_isLayout (c : Char) (layout : isLayout c = true) : isDigit c = false := by
  rcases layout_cases layout with rfl | rfl | rfl | rfl | rfl <;> rfl

theorem continuesWord_of_isLayout (c : Char) (layout : isLayout c = true) : continuesWord c = false := by
  rcases layout_cases layout with rfl | rfl | rfl | rfl | rfl <;> rfl

/-! ### Numbers and words -/

/-- The digits of a number behind the point that follows its whole part, if they do. -/
def fractionOf : List Char → List Char
  | '.' :: behind => behind.takeWhile isDigit
  | _ => []

/-- The number that digits make, given those behind the point. -/
def numberOf? (c : Char) (whole fraction : List Char) : Option Piece :=
  if fraction.isEmpty then
    (Numeral.natural? 10 (c :: whole)).bind fun n =>
      if n ≤ maxInt then some ⟨some (.int n), whole.length⟩ else none
  else
    some ⟨some (.decimal (String.ofList (c :: whole ++ '.' :: fraction))), whole.length + 1 + fraction.length⟩

theorem number?_eq (c : Char) (rest : List Char) :
    number? c rest = numberOf? c (rest.takeWhile isDigit) (fractionOf (rest.dropWhile isDigit)) := rfl

theorem number?_append {whole : List Char} (digits : ∀ c ∈ whole, isDigit c = true)
    (stops : ∀ c ∈ t.head?, isDigit c = false) : number? c (whole ++ t) = numberOf? c whole (fractionOf t) := by
  rw [number?_eq, takeWhile_append_of_stops digits stops, dropWhile_append_of_stops digits stops]

theorem fractionOf_of_ne (other : ∀ c ∈ t.head?, c ≠ '.') : fractionOf t = [] := by
  unfold fractionOf
  split
  · exact absurd rfl (other '.' rfl)
  · rfl

theorem numberOf?_integer {whole : List Char} (found : numberOf? c whole [] = some piece) :
    ∃ token, piece = ⟨some token, whole.length⟩ := by
  simp only [numberOf?, List.isEmpty_nil, ↓reduceIte] at found
  obtain ⟨n, -, found⟩ := Option.bind_eq_some_iff.1 found
  split at found
  · cases found
    exact ⟨.int n, rfl⟩
  · cases found

theorem settles_number? (c : Char) : Settles (number? c) := by
  intro rest piece found
  have digits : ∀ d ∈ rest.takeWhile isDigit, isDigit d = true := fun _ => List.mem_takeWhile_imp
  have stops : ∀ d ∈ (rest.dropWhile isDigit).head?, isDigit d = false := fun _ => head?_dropWhile
  have cut : rest = rest.takeWhile isDigit ++ rest.dropWhile isDigit := List.takeWhile_append_dropWhile.symm
  rw [number?_eq] at found
  generalize rest.takeWhile isDigit = whole at *
  generalize rest.dropWhile isDigit = behind at *
  subst cut
  by_cases whether : fractionOf behind = []
  · -- an integer; what is behind it starts with no point, unless a point without digits
    rw [whether] at found
    obtain ⟨token, same⟩ := numberOf?_integer found
    refine ⟨whole, behind, token, rfl, same, fun t' bordered => ?_⟩
    have other : ∀ d ∈ t'.head?, d ≠ '.' := by
      intro d first
      rcases bordered d first with layout | ⟨-, other⟩
      · rintro rfl
        exact absurd layout (by decide)
      · exact other
    rw [number?_append digits (bordered.stops isDigit_of_isLayout stops), fractionOf_of_ne other, found]
  · obtain ⟨d, same⟩ : ∃ d, behind = '.' :: d := by
      unfold fractionOf at whether
      split at whether
      · next d => exact ⟨d, rfl⟩
      · exact absurd rfl whether
    subst same
    have some : (fractionOf ('.' :: d)).isEmpty = false := by simpa using whether
    rw [numberOf?, if_neg (by simp [some])] at found
    cases found
    refine ⟨whole ++ '.' :: d.takeWhile isDigit, d.dropWhile isDigit,
      .decimal (String.ofList (c :: whole ++ '.' :: d.takeWhile isDigit)), ?_, ?_, fun t' bordered => ?_⟩
    · rw [List.append_assoc, List.cons_append, List.takeWhile_append_dropWhile]
    · refine congrArg (Piece.mk _) ?_
      simp only [fractionOf, List.length_append, List.length_cons]
      omega
    · have stops' := bordered.stops isDigit_of_isLayout fun _ => head?_dropWhile
      have point : ∀ e ∈ ('.' :: d.takeWhile isDigit ++ t').head?, isDigit e = false := by
        intro e first
        cases first
        rfl
      have fraction : fractionOf ('.' :: d.takeWhile isDigit ++ t') = d.takeWhile isDigit :=
        takeWhile_append_of_stops (fun _ => List.mem_takeWhile_imp) stops'
      rw [List.append_assoc, number?_append digits point, fraction, numberOf?, if_neg (by simpa [fractionOf] using some)]
      rfl

/-- The word that starts a text. -/
def word (c : Char) (rest : List Char) : Piece :=
  ⟨some (wordToken (String.ofList (c :: rest.takeWhile continuesWord))), (rest.takeWhile continuesWord).length⟩

theorem settles_word (c : Char) : Settles fun rest => some (word c rest) := by
  intro rest piece found
  cases found
  refine ⟨rest.takeWhile continuesWord, rest.dropWhile continuesWord, _, List.takeWhile_append_dropWhile.symm, rfl, ?_⟩
  intro t' bordered
  have stops := bordered.stops continuesWord_of_isLayout fun _ => head?_dropWhile
  simp only [word, takeWhile_append_of_stops (fun _ => List.mem_takeWhile_imp) stops]

/-! ### Quoted literals -/

theorem settles_character? : Settles character? := by
  intro rest piece found
  unfold character? at found
  split at found
  · next d tail =>
    split at found
    · cases found
    · next other =>
      cases found
      refine ⟨['\\', d, '\''], tail, _, rfl, rfl, fun t' _ => ?_⟩
      simp [character?, other]
  · next d tail outer =>
    split at found
    · cases found
    · next other =>
      cases found
      refine ⟨[d, '\''], tail, _, rfl, rfl, fun t' _ => ?_⟩
      simp only [not_or] at other
      unfold character?
      simp only [List.cons_append, List.nil_append]
      split
      · next same => simp at same; exact absurd same.1 other.2.1
      · next same =>
        simp only [List.cons.injEq, true_and] at same
        obtain ⟨rfl, rfl⟩ := same
        simp [other]
      · next no => exact absurd rfl (no d t')
  · cases found

theorem stringBody?_append {content : List Char} {length : Nat} (found : stringBody? rest = some (content, length)) :
    ∃ own t, rest = own ++ t ∧ length = own.length ∧ ∀ t', stringBody? (own ++ t') = some (content, own.length) := by
  fun_induction stringBody? rest generalizing content length with
  | case1 => cases found
  | case2 t =>
    cases found
    exact ⟨['"'], t, rfl, rfl, fun _ => rfl⟩
  | case3 => cases found
  | case4 => cases found
  | case5 d rest other ih =>
    obtain ⟨⟨content, length⟩, inner, same⟩ := Option.map_eq_some_iff.1 found
    cases same
    obtain ⟨own, t, rfl, rfl, again⟩ := ih inner
    refine ⟨'\\' :: d :: own, t, rfl, rfl, fun t' => ?_⟩
    simp only [List.cons_append, stringBody?, if_neg other, again t']
    rfl
  | case6 => cases found
  | case7 d rest closing newline escape other ih =>
    obtain ⟨⟨content, length⟩, inner, same⟩ := Option.map_eq_some_iff.1 found
    cases same
    obtain ⟨own, t, rfl, rfl, again⟩ := ih inner
    refine ⟨d :: own, t, rfl, rfl, fun t' => ?_⟩
    rw [List.cons_append, stringBody?, if_neg other, again t']
    · rfl
    · exact closing
    · exact newline
    · exact fun _ _ same _ => other same

theorem settles_string? : Settles string? := by
  intro rest piece found
  obtain ⟨⟨content, length⟩, body, rfl⟩ := Option.map_eq_some_iff.1 found
  obtain ⟨own, t, rfl, rfl, again⟩ := stringBody?_append body
  refine ⟨own, t, _, rfl, rfl, fun t' _ => ?_⟩
  rw [string?, again t']
  rfl

/-! ### Symbols -/

/-- Longer spellings stand in front of shorter ones. -/
theorem spellings_descending : spellings.Pairwise fun s u => u.1.length ≤ s.1.length := by decide +kernel

/-- What a spelling starts with is a spelling. -/
theorem spelling_of_start : ∀ s ∈ spellings, ∀ start ∈ s.1.inits, start ≠ [] → start ∈ spellings.map Prod.fst := by
  decide +kernel

theorem all_spellings : (spellings.all fun s => s.1.head? ≠ some '.' && s.1.all fun c => !isLayout c) = true := by
  decide +kernel

theorem nonempty_of_spelling : ∀ s ∈ spellings, s.1 ≠ [] := by decide +kernel

theorem noLayout_of_spelling {s : List Char × Token} (spelling : s ∈ spellings) (member : c ∈ s.1) :
    isLayout c = false := by
  have checked := List.all_eq_true.1 all_spellings s spelling
  rw [Bool.and_eq_true, List.all_eq_true] at checked
  simpa using checked.2 c member

theorem noPoint_of_spelling {s : List Char × Token} (spelling : s ∈ spellings) : s.1.head? ≠ some '.' := by
  have checked := List.all_eq_true.1 all_spellings s spelling
  rw [Bool.and_eq_true] at checked
  simpa using checked.1

/-- Where the longest spelling that a text starts with ends, no longer one can come of another text behind. -/
theorem length_le_of_bordered {s u : List Char × Token} (spelling : u ∈ spellings) (bordered : Bordered t t')
    (longest : ∀ v ∈ spellings, v.1 <+: s.1 ++ t → v.1.length ≤ s.1.length) (starts : u.1 <+: s.1 ++ t') :
    u.1.length ≤ s.1.length := by
  by_contra longer
  obtain ⟨more, whole⟩ := List.prefix_of_prefix_length_le (List.prefix_append s.1 t') starts (by omega)
  cases more with
  | nil =>
    rw [List.append_nil] at whole
    exact longer (by rw [whole])
  | cons x more =>
    have first : x ∈ t'.head? := by
      rw [← whole, List.prefix_append_right_inj] at starts
      obtain ⟨tail, rfl⟩ := starts
      rfl
    rcases bordered x first with layout | ⟨first, -⟩
    · have member : x ∈ u.1 := by simp [← whole]
      rw [noLayout_of_spelling spelling member] at layout
      cases layout
    · -- the character behind made a longer spelling before
      have start : s.1 ++ [x] <+: u.1 := ⟨more, by rw [← whole]; simp⟩
      obtain ⟨v, spelling', same⟩ := List.mem_map.1 (spelling_of_start u spelling (s.1 ++ [x])
        ((List.mem_inits _ _).2 start) (by simp))
      have there : v.1 <+: s.1 ++ t := by
        rw [same, List.prefix_append_right_inj]
        obtain ⟨tail, rfl⟩ : ∃ tail, t = x :: tail := List.head?_eq_some_iff.1 first
        exact ⟨tail, rfl⟩
      have short := longest v spelling' there
      rw [same, List.length_append, List.length_singleton] at short
      omega

theorem settles_symbol? (c : Char) : Settles fun rest => symbol? (c :: rest) := by
  intro rest piece found
  obtain ⟨s, first, rfl⟩ := Option.map_eq_some_iff.1 found
  have spelling := List.mem_of_find?_eq_some first
  obtain ⟨starts, before, behind, split, others⟩ := List.find?_eq_some_iff_append.1 first
  obtain ⟨t, whole⟩ := List.isPrefixOf_iff_prefix.1 starts
  rw [← whole] at first others
  have longest : ∀ v ∈ spellings, v.1 <+: s.1 ++ t → v.1.length ≤ s.1.length := by
    intro v spelling' starts'
    have descending := spellings_descending
    rw [split] at spelling' descending
    rcases List.mem_append.1 spelling' with member | member
    · have fails := others v member
      rw [List.isPrefixOf_iff_prefix.2 starts'] at fails
      cases fails
    · rcases List.mem_cons.1 member with rfl | member
      · exact Nat.le_refl _
      · exact (List.pairwise_cons.1 (List.pairwise_append.1 descending).2.1).1 v member
  obtain ⟨own, spelled, rfl⟩ : ∃ own, s.1 = c :: own ∧ rest = own ++ t := by
    have some := nonempty_of_spelling s spelling
    cases text : s.1 with
    | nil => exact absurd text some
    | cons d own =>
      rw [text] at whole
      cases whole
      exact ⟨own, rfl, rfl⟩
  refine ⟨own, t, s.2, rfl, by rw [spelled]; rfl, fun t' bordered => ?_⟩
  have same : spellings.find? (fun u => u.1.isPrefixOf (s.1 ++ t')) = some s := by
    rw [← first]
    refine List.find?_congr fun u spelling' => Bool.eq_iff_iff.2 ?_
    rw [List.isPrefixOf_iff_prefix, List.isPrefixOf_iff_prefix]
    constructor
    · intro starts
      have short := length_le_of_bordered spelling' bordered longest starts
      exact (List.prefix_of_prefix_length_le starts (List.prefix_append s.1 t') short).trans (List.prefix_append s.1 t)
    · intro starts
      have short := longest u spelling' starts
      exact (List.prefix_of_prefix_length_le starts (List.prefix_append s.1 t) short).trans (List.prefix_append s.1 t')
  rw [spelled, List.cons_append] at same
  change symbol? (c :: (own ++ t')) = _
  rw [symbol?, same]
  rfl

/-! ### Comments -/

/-- A block comment ends at the first mark of its end. -/
theorem commentLength?_append {length : Nat} (found : commentLength? rest = some length) :
    ∃ own t, rest = own ++ t ∧ length = own.length ∧ ∀ t', commentLength? (own ++ t') = some own.length := by
  fun_induction commentLength? rest generalizing length with
  | case1 => cases found
  | case2 t =>
    cases found
    exact ⟨['*', '/'], t, rfl, rfl, fun _ => rfl⟩
  | case3 d rest other ih =>
    obtain ⟨length, inner, rfl⟩ := Option.map_eq_some_iff.1 found
    obtain ⟨own, t, rfl, rfl, again⟩ := ih inner
    refine ⟨d :: own, t, rfl, rfl, fun t' => ?_⟩
    rw [List.cons_append, commentLength?, again t']
    · rfl
    · rintro tail rfl same
      cases own with
      | nil => cases (again [] : commentLength? [] = some 0)
      | cons e own =>
        cases same
        exact other _ rfl rfl

theorem commentLength?_of_inside {text : List Char} (inside : ¬ ['*', '/'] <:+: text) (t : List Char) :
    commentLength? (text ++ '*' :: '/' :: t) = some (text.length + 2) := by
  induction text with
  | nil => rfl
  | cons d text ih =>
    have inner : ¬ ['*', '/'] <:+: text := fun within => inside (within.trans (List.infix_cons (List.infix_refl text)))
    rw [List.cons_append, commentLength?, ih inner]
    · rfl
    · rintro tail rfl same
      cases text with
      | nil => cases same
      | cons e text =>
        cases same
        exact inside ⟨[], text, rfl⟩

/-! ### Pieces -/

/-- What a piece is that a character and the characters behind it make, in front of a text, and where it is found
again. -/
inductive Found (c : Char) (own t : List Char) : Piece → Prop where
  | layout (first : isLayout c = true) (all : ∀ d ∈ own, isLayout d = true) : Found c own t (.skip own.length)
  /-- A directive or a line comment. -/
  | line (ends : ∀ d ∈ t.head?, d = '\n')
      (again : ∀ t', (∀ d ∈ t'.head?, d = '\n') → recognise? c (own ++ t') = some (.skip own.length)) :
      Found c own t (.skip own.length)
  | block (again : ∀ t', recognise? c (own ++ t') = some (.skip own.length)) : Found c own t (.skip own.length)
  | token (token : Token) (noLayout : isLayout c = false)
      (again : ∀ t', Bordered t t' → recognise? c (own ++ t') = some ⟨some token, own.length⟩) :
      Found c own t ⟨some token, own.length⟩

theorem ends_of_staysOnLine {cs : List Char} (first : c ∈ (cs.dropWhile staysOnLine).head?) : c = '\n' := by
  simpa [staysOnLine] using head?_dropWhile first

theorem takeWhile_staysOnLine {text : List Char} (stays : ∀ d ∈ text, staysOnLine d = true)
    (ends : ∀ d ∈ t.head?, d = '\n') : (text ++ t).takeWhile staysOnLine = text := by
  refine takeWhile_append_of_stops stays fun d first => ?_
  rw [ends d first]
  rfl

/-- What starts with a slash is a comment, or is not. -/
theorem recognise?_slash (rest : List Char) : recognise? '/' rest =
    match rest with
    | '/' :: _ => some (.skip (rest.takeWhile staysOnLine).length)
    | '*' :: behind => (commentLength? behind).map fun n => .skip (n + 1)
    | _ => symbol? ('/' :: rest) := by
  cases rest with
  | nil => rfl
  | cons d rest =>
    by_cases line : d = '/'
    · subst line
      rfl
    · by_cases block : d = '*'
      · subst block
        rfl
      · unfold recognise?
        simp [isLayout, isDigit, startsWord, line, block]

theorem found_of_settles {read : List Char → Option Piece} (noLayout : isLayout c = false)
    (same : ∀ rest, recognise? c rest = read rest) (settles : Settles read) (found : recognise? c rest = some piece) :
    ∃ own t, rest = own ++ t ∧ Found c own t piece := by
  rw [same] at found
  obtain ⟨own, t, token, rfl, rfl, again⟩ := settles _ piece found
  exact ⟨own, t, rfl, .token token noLayout fun t' bordered => by rw [same, again t' bordered]⟩

/-- A symbol that a slash starts, in front of what does not make it a comment. -/
theorem found_of_slash (found : recognise? '/' rest = some piece) : ∃ own t, rest = own ++ t ∧ Found '/' own t piece := by
  rw [recognise?_slash] at found
  split at found
  · next behind =>
    cases found
    have stays : ∀ d ∈ behind.takeWhile staysOnLine, staysOnLine d = true := fun _ => List.mem_takeWhile_imp
    refine ⟨'/' :: behind.takeWhile staysOnLine, behind.dropWhile staysOnLine, ?_, ?_⟩
    · rw [List.cons_append, List.takeWhile_append_dropWhile]
    · refine .line (fun _ => ends_of_staysOnLine) fun t' ends => ?_
      rw [recognise?_slash]
      refine congrArg (fun cs : List Char => some (Piece.skip cs.length)) ?_
      exact takeWhile_staysOnLine (List.forall_mem_cons.2 ⟨rfl, stays⟩) ends
  · next behind =>
    obtain ⟨length, closed, rfl⟩ := Option.map_eq_some_iff.1 found
    obtain ⟨own, t, rfl, rfl, again⟩ := commentLength?_append closed
    refine ⟨'*' :: own, t, rfl, .block fun t' => ?_⟩
    rw [recognise?_slash]
    simp only [List.cons_append, again t']
    rfl
  · next noLine noBlock =>
    obtain ⟨own, t, token, rfl, rfl, again⟩ := settles_symbol? '/' rest piece found
    refine ⟨own, t, rfl, .token token rfl fun t' bordered => ?_⟩
    -- what follows the slash is layout, or what followed it before
    have first : ∀ d ∈ (own ++ t').head?, isLayout d = true ∨ d ∈ (own ++ t).head? := by
      cases own with
      | nil => exact fun d first => (bordered d first).imp_right And.left
      | cons e own => exact fun d first => .inr first
    rw [recognise?_slash]
    split
    · next behind same =>
      rcases first '/' (by rw [same]; rfl) with layout | first
      · cases layout
      · obtain ⟨tail, same⟩ := List.head?_eq_some_iff.1 first
        exact absurd same (noLine tail)
    · next behind same =>
      rcases first '*' (by rw [same]; rfl) with layout | first
      · cases layout
      · obtain ⟨tail, same⟩ := List.head?_eq_some_iff.1 first
        exact absurd same (noBlock tail)
    · exact again t' bordered

/-- Every piece is a part of the text, and found again where its kind allows. -/
theorem found_of_recognise? (found : recognise? c rest = some piece) :
    ∃ own t, rest = own ++ t ∧ Found c own t piece := by
  by_cases layout : isLayout c = true
  · have same : recognise? c rest = some (.skip (rest.takeWhile isLayout).length) := by
      unfold recognise?
      rw [if_pos layout]
    cases same.symm.trans found
    exact ⟨_, _, List.takeWhile_append_dropWhile.symm, .layout layout fun _ => List.mem_takeWhile_imp⟩
  have noLayout := Bool.eq_false_iff.2 layout
  by_cases directive : c = '#'
  · subst directive
    cases found
    refine ⟨_, _, List.takeWhile_append_dropWhile.symm, .line (fun _ => ends_of_staysOnLine) fun t' ends => ?_⟩
    refine congrArg (fun cs : List Char => some (Piece.skip cs.length)) ?_
    exact takeWhile_staysOnLine (fun _ => List.mem_takeWhile_imp) ends
  by_cases digit : isDigit c = true
  · exact found_of_settles noLayout (fun rest => by simp [recognise?, layout, directive, digit]) (settles_number? c) found
  by_cases starts : startsWord c = true
  · exact found_of_settles noLayout (fun rest => by simp [recognise?, layout, directive, digit, starts, word])
      (settles_word c) found
  by_cases quote : c = '\''
  · subst quote
    exact found_of_settles noLayout (fun rest => rfl) settles_character? found
  by_cases quotes : c = '"'
  · subst quotes
    exact found_of_settles noLayout (fun rest => rfl) settles_string? found
  by_cases slash : c = '/'
  · subst slash
    exact found_of_slash found
  · exact found_of_settles noLayout
      (fun rest => by simp [recognise?, layout, directive, digit, starts, quote, quotes, slash]) (settles_symbol? c) found

/-- No piece starts with a point. -/
theorem recognise?_point (rest : List Char) : recognise? '.' rest = none := by
  change symbol? ('.' :: rest) = none
  rw [symbol?, Option.map_eq_none_iff, List.find?_eq_none]
  intro s spelling starts
  obtain ⟨t, whole⟩ := List.isPrefixOf_iff_prefix.1 starts
  have other := noPoint_of_spelling spelling
  cases text : s.1 with
  | nil => exact nonempty_of_spelling s spelling text
  | cons d own =>
    rw [text] at whole other
    cases whole
    exact other rfl

end SmallC.Lexer
