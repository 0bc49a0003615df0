import SmallC.Proofs.Source.Separators

/-!
Where the lexemes of a source stand. Bytes and lines are counted on from piece to piece while a source is cut, and once
more from its start for a message. Both counts agree at every lexeme: each lies in the text, behind those before it, and
has the line that its first byte lies on. Joining a minus sign with its number moves a start back, but never across the
end of a line.
-/
namespace SmallC

/-! ### Lines counted again -/

namespace Source

/-- Counting on to the offset behind a part of a text passes that part and nothing else. -/
theorem lineColumnFrom_append (passed rest : List Char) (offset line column : Nat) :
    (lineColumnFrom (offset + String.utf8Len passed) offset line column (passed ++ rest)).1 =
      line + passed.count '\n' := by
  induction passed generalizing offset line column with
  | nil => cases rest <;> simp [lineColumnFrom, String.utf8Len]
  | cons c passed ih =>
    have before : ¬ offset + String.utf8Len (c :: passed) ≤ offset := by
      have wide := c.utf8Size_pos
      rw [String.utf8Len_cons]
      omega
    have target : offset + String.utf8Len (c :: passed) = offset + c.utf8Size + String.utf8Len passed := by
      rw [String.utf8Len_cons]
      omega
    rw [List.cons_append, lineColumnFrom, if_neg before, target]
    split
    · next newline =>
      subst newline
      rw [ih, List.count_cons_self]
      omega
    · next other => rw [ih, List.count_cons_of_ne other]

theorem lineColumn_line {source : String} {passed rest : List Char} (whole : source.toList = passed ++ rest) :
    (lineColumn source (String.utf8Len passed)).1 = 1 + passed.count '\n' := by
  have counted := lineColumnFrom_append passed rest 0 1 1
  rwa [Nat.zero_add, ← whole] at counted

end Source

/-- Two parts that a text starts with are the same if they are as long in bytes. -/
theorem eq_of_prefixes {text some other : List Char} (starts : some <+: text) (starts' : other <+: text)
    (size : String.utf8Len some = String.utf8Len other) : some = other := by
  have same : ∀ {short long : List Char}, short <+: long → String.utf8Len short = String.utf8Len long → short = long := by
    rintro short long ⟨more, rfl⟩ size
    rw [String.utf8Len_append] at size
    rw [String.utf8Len_eq_zero.1 (by omega : String.utf8Len more = 0), List.append_nil]
  rcases List.prefix_or_prefix_of_prefix starts starts' with shorter | longer
  · exact same shorter size
  · exact (same longer size.symm).symm

namespace Lexer

variable {place : Place} {c : Char} {cs rest text passed own behind : List Char} {token : Token} {n : Nat}
  {ls : List Lexeme} {l sign number folded : Lexeme}

/-! ### Minus signs -/

theorem minus_of_spelling : ∀ s ∈ spellings, s.2 = .operator .minus → s.1 = ['-'] := by decide +kernel

theorem symbol?_minus (found : symbol? (c :: rest) = some ⟨some (.operator .minus), n⟩) : c = '-' ∧ n = 0 := by
  obtain ⟨s, first, same⟩ := Option.map_eq_some_iff.1 found
  simp only [Piece.mk.injEq, Option.some.injEq] at same
  have spelled := minus_of_spelling s (List.mem_of_find?_eq_some first) same.1
  have starts := List.find?_some first
  rw [spelled] at starts same
  simp only [List.isPrefixOf, Bool.and_true, beq_iff_eq] at starts
  exact ⟨starts.symm, same.2.symm⟩

theorem number?_no_minus : number? c rest ≠ some ⟨some (.operator .minus), n⟩ := by
  rw [number?_eq, numberOf?]
  intro found
  split at found
  · obtain ⟨value, -, found⟩ := Option.bind_eq_some_iff.1 found
    split at found <;> cases found
  · cases found

theorem wordToken_no_minus (word : String) : wordToken word ≠ .operator .minus := by
  unfold wordToken
  split
  · nofun
  · split <;> nofun

theorem character?_no_minus : character? rest ≠ some ⟨some (.operator .minus), n⟩ := by
  intro found
  unfold character? at found
  split at found
  · split at found <;> cases found
  · split at found <;> cases found
  · cases found

theorem string?_no_minus : string? rest ≠ some ⟨some (.operator .minus), n⟩ := by
  intro found
  obtain ⟨body, -, same⟩ := Option.map_eq_some_iff.1 found
  cases same

/-- A minus sign is one character, and no line ends with it. -/
theorem recognise?_minus (found : recognise? c rest = some ⟨some (.operator .minus), n⟩) : c = '-' ∧ n = 0 := by
  unfold recognise? at found
  split at found
  · cases found
  split at found
  · cases found
  split at found
  · exact absurd found number?_no_minus
  split at found
  · simp only [Option.some.injEq, Piece.mk.injEq] at found
    exact absurd found.1 (wordToken_no_minus _)
  split at found
  · exact absurd found character?_no_minus
  split at found
  · exact absurd found string?_no_minus
  split at found
  · cases found
  · obtain ⟨length, -, same⟩ := Option.map_eq_some_iff.1 found
    cases same
  · exact symbol?_minus found

/-! ### Lexemes in their text -/

/-- Where a lexeme stands in a text that starts at a place: some of the text is passed before it, and some of it is its
own. -/
structure StandsAt (place : Place) (text : List Char) (l : Lexeme) (passed own : List Char) : Prop where
  whole : ∃ behind, text = passed ++ own ++ behind
  some : own ≠ []
  start : place.advance passed = ⟨l.start, l.line⟩
  stop : (place.advance (passed ++ own)).offset = l.stop
  minus : l.token = .operator .minus → own = ['-']

theorem StandsAt.further (skipped : List Char) (stands : StandsAt (place.advance skipped) text l passed own) :
    StandsAt place (skipped ++ text) l (skipped ++ passed) own where
  whole := by
    obtain ⟨behind, rfl⟩ := stands.whole
    exact ⟨behind, by simp only [List.append_assoc]⟩
  some := stands.some
  start := by rw [Place.advance_append, stands.start]
  stop := by rw [List.append_assoc, Place.advance_append, stands.stop]
  minus := stands.minus

/-- Every lexeme of a text stands somewhere in it. -/
theorem Cuts.stands (cuts : Cuts place cs ls) (member : l ∈ ls) : ∃ passed own, StandsAt place cs l passed own := by
  induction cuts with
  | nil => cases member
  | @skip place c own t ls found cuts ih =>
    obtain ⟨passed, own', stands⟩ := ih member
    exact ⟨_, own', stands.further (c :: own)⟩
  | @token place c own t ls token found cuts ih =>
    rcases List.mem_cons.1 member with rfl | member
    · refine ⟨[], c :: own, ⟨t, rfl⟩, List.cons_ne_nil c own, rfl, rfl, fun minus => ?_⟩
      obtain rfl : token = .operator .minus := minus
      obtain ⟨rfl, alone⟩ := recognise?_minus found
      rw [List.length_eq_zero_iff.1 alone]
    · obtain ⟨passed, own', stands⟩ := ih member
      exact ⟨_, own', stands.further (c :: own)⟩

/-- The lexemes of a text from a place on start behind it, each behind those before. -/
theorem Cuts.ascending (cuts : Cuts place cs ls) :
    (∀ l ∈ ls, place.offset ≤ l.start) ∧ ls.Pairwise fun a b => a.stop ≤ b.start := by
  induction cuts with
  | nil => exact ⟨nofun, .nil⟩
  | @skip place c own t ls found cuts ih =>
    exact ⟨fun l member => Nat.le_trans (Place.le_offset_advance place _) (ih.1 l member), ih.2⟩
  | @token place c own t ls token found cuts ih =>
    refine ⟨List.forall_mem_cons.2 ⟨Nat.le_refl _, fun l member => ?_⟩, .cons ih.1 ih.2⟩
    exact Nat.le_trans (Place.le_offset_advance place _) (ih.1 l member)

namespace StandsAt

variable {source : String} {passed' own' : List Char}

theorem passed_le_stop (stands : StandsAt .start text l passed own) :
    String.utf8Len passed = l.start ∧ String.utf8Len passed + String.utf8Len own = l.stop ∧
      1 + passed.count '\n' = l.line := by
  have start := stands.start
  have stop := stands.stop
  rw [Place.advance_eq_moved] at start stop
  rw [String.utf8Len_append] at stop
  simp only [Place.moved, Place.start, Nat.zero_add, Place.mk.injEq] at start stop
  exact ⟨start.1, stop, start.2⟩

/-- A lexeme has a place of its own in the text. -/
theorem inside (stands : StandsAt .start source.toList l passed own) :
    l.start < l.stop ∧ l.stop ≤ source.utf8ByteSize := by
  obtain ⟨start, stop, -⟩ := stands.passed_le_stop
  obtain ⟨behind, whole⟩ := stands.whole
  have wide : 0 < String.utf8Len own := by
    obtain ⟨c, rest, rfl⟩ := List.exists_cons_of_ne_nil stands.some
    have wide := c.utf8Size_pos
    rw [String.utf8Len_cons]
    omega
  have size : source.utf8ByteSize = String.utf8Len passed + String.utf8Len own + String.utf8Len behind := by
    rw [← String.ofList_toList (s := source), String.utf8ByteSize_ofList, whole, String.utf8Len_append,
      String.utf8Len_append]
  omega

/-- The line of a lexeme is counted again where it starts. -/
theorem line_eq (stands : StandsAt .start source.toList l passed own) :
    l.line = (Source.lineColumn source l.start).1 := by
  obtain ⟨start, -, line⟩ := stands.passed_le_stop
  obtain ⟨behind, whole⟩ := stands.whole
  rw [List.append_assoc] at whole
  rw [← start, Source.lineColumn_line whole, line]

/-- What is directly behind a minus sign is on its line. -/
theorem line_of_minus (stands : StandsAt .start text sign passed own) (stands' : StandsAt .start text number passed' own')
    (minus : sign.token = .operator .minus) (directly : sign.stop = number.start) : number.line = sign.line := by
  obtain ⟨start, stop, line⟩ := stands.passed_le_stop
  obtain ⟨start', stop', line'⟩ := stands'.passed_le_stop
  obtain ⟨behind, whole⟩ := stands.whole
  obtain ⟨behind', whole'⟩ := stands'.whole
  rw [List.append_assoc] at whole'
  have same : passed' = passed ++ own :=
    eq_of_prefixes ⟨own' ++ behind', whole'.symm⟩ ⟨behind, whole.symm⟩ (by rw [String.utf8Len_append]; omega)
  rw [← line, ← line', same, stands.minus minus, List.count_append]
  simp

end StandsAt

/-! ### Marks and folds -/

theorem eq_of_mem_markFrom {afterOperand : Bool} (member : l ∈ markFrom afterOperand ls) :
    ∃ l' ∈ ls, l = { l' with beforeOperand := l.beforeOperand } := by
  induction ls generalizing afterOperand with
  | nil => cases member
  | cons first ls ih =>
    rcases List.mem_cons.1 member with rfl | member
    · exact ⟨first, List.mem_cons_self, rfl⟩
    · obtain ⟨l', member, same⟩ := ih member
      exact ⟨l', List.mem_cons_of_mem _ member, same⟩

theorem markFrom_ascending {afterOperand : Bool} (ascending : ls.Pairwise fun a b => a.stop ≤ b.start) :
    (markFrom afterOperand ls).Pairwise fun a b => a.stop ≤ b.start := by
  induction ascending generalizing afterOperand with
  | nil => exact .nil
  | cons behind _ ih =>
    refine .cons (fun l member => ?_) ih
    obtain ⟨l', member, same⟩ := eq_of_mem_markFrom member
    rw [same]
    exact behind l' member

/-- A folded number has the line and the end of the number, and starts where its sign does. -/
theorem fold?_places (folds : fold? sign number = some folded) : sign.token = .operator .minus ∧
    sign.stop = number.start ∧ folded.start = sign.start ∧ folded.stop = number.stop ∧ folded.line = number.line := by
  unfold fold? at folds
  split at folds
  · next joins =>
    obtain ⟨token, -, rfl⟩ := Option.map_eq_some_iff.1 folds
    exact ⟨joins.2.1, joins.2.2, rfl, rfl, rfl⟩
  · cases folds

theorem mem_foldNegatives (member : l ∈ foldNegatives ls) :
    l ∈ ls ∨ ∃ sign ∈ ls, ∃ number ∈ ls, fold? sign number = some l := by
  induction ls using foldNegatives.induct with
  | case1 sign number rest folded folds ih =>
    rw [foldNegatives_of_some folds] at member
    rcases List.mem_cons.1 member with rfl | member
    · exact .inr ⟨sign, List.mem_cons_self, number, .tail _ List.mem_cons_self, folds⟩
    · refine (ih member).imp (fun there => .tail _ (.tail _ there)) ?_
      rintro ⟨sign', there, number', there', folds'⟩
      exact ⟨sign', .tail _ (.tail _ there), number', .tail _ (.tail _ there'), folds'⟩
  | case2 sign number rest folds ih =>
    rw [foldNegatives_of_none folds] at member
    rcases List.mem_cons.1 member with rfl | member
    · exact .inl List.mem_cons_self
    · refine (ih member).imp (.tail _) ?_
      rintro ⟨sign', there, number', there', folds'⟩
      exact ⟨sign', .tail _ there, number', .tail _ there', folds'⟩
  | case3 ls other =>
    rw [foldNegatives] at member
    · exact .inl member
    · exact other

theorem foldNegatives_ascending (ascending : ls.Pairwise fun a b => a.stop ≤ b.start) :
    (foldNegatives ls).Pairwise fun a b => a.stop ≤ b.start := by
  induction ls using foldNegatives.induct with
  | case1 sign number rest folded folds ih =>
    obtain ⟨-, ascending⟩ := List.pairwise_cons.1 ascending
    obtain ⟨behind, ascending⟩ := List.pairwise_cons.1 ascending
    rw [foldNegatives_of_some folds]
    refine .cons (fun l member => ?_) (ih ascending)
    obtain ⟨before, x, after, rfl, start, -⟩ := split_of_mem_foldNegatives member
    rw [(fold?_places folds).2.2.2.1, ← start]
    exact behind x (by simp)
  | case2 sign number rest folds ih =>
    obtain ⟨behind, ascending⟩ := List.pairwise_cons.1 ascending
    rw [foldNegatives_of_none folds]
    refine .cons (fun l member => ?_) (ih ascending)
    obtain ⟨before, x, after, whole, start, -⟩ := split_of_mem_foldNegatives member
    rw [← start]
    exact behind x (by rw [whole]; simp)
  | case3 ls other =>
    rw [foldNegatives]
    · exact ascending
    · exact other

/-- A lexeme that lies in its source, on the line that its first byte lies on. -/
structure InPlace (source : String) (l : Lexeme) : Prop where
  some : l.start < l.stop
  inside : l.stop ≤ source.utf8ByteSize
  line : l.line = (Source.lineColumn source l.start).1

theorem StandsAt.inPlace {source : String} (stands : StandsAt .start source.toList l passed own) : InPlace source l :=
  ⟨stands.inside.1, stands.inside.2, stands.line_eq⟩

/-- A sign and its number are in place together if each is. -/
theorem inPlace_of_fold? {source : String} {passed' own' : List Char}
    (stands : StandsAt .start source.toList sign passed own)
    (stands' : StandsAt .start source.toList number passed' own') (folds : fold? sign number = some folded) :
    InPlace source folded := by
  obtain ⟨minus, directly, start, stop, line⟩ := fold?_places folds
  obtain ⟨some, -, line'⟩ := stands.inPlace
  obtain ⟨some', inside', -⟩ := stands'.inPlace
  refine ⟨by omega, by omega, ?_⟩
  rw [line, start, ← line']
  exact stands.line_of_minus stands' minus directly

theorem stands_of_mem_markFrom {source : String} {afterOperand : Bool} (cuts : Cuts .start source.toList ls)
    (member : l ∈ markFrom afterOperand ls) : ∃ passed own, StandsAt .start source.toList l passed own := by
  obtain ⟨l', member', same⟩ := eq_of_mem_markFrom member
  obtain ⟨passed, own, whole, some, start, stop, minus⟩ := cuts.stands member'
  rw [same]
  exact ⟨passed, own, whole, some, start, stop, minus⟩

end Lexer

open Lexer

/-- The lexemes of a source are not empty, lie in it one behind the other, and each has the line that is counted again
for the byte it starts at. -/
theorem lexemes_in_place {source : String} {ls : List Lexeme} (cut : tokenize source = .ok ls) :
    (∀ l ∈ ls, l.start < l.stop ∧ l.stop ≤ source.utf8ByteSize ∧ l.line = (Source.lineColumn source l.start).1) ∧
      ls.Pairwise fun a b => a.start < b.start ∧ a.stop ≤ b.start := by
  obtain ⟨scanned, cuts, rfl⟩ := tokenize_eq_ok_iff.1 cut
  have placed : ∀ l ∈ foldNegatives (markFrom false scanned), InPlace source l := by
    intro l member
    rcases mem_foldNegatives member with there | ⟨sign, there, number, there', folds⟩
    · obtain ⟨passed, own, stands⟩ := stands_of_mem_markFrom cuts there
      exact stands.inPlace
    · obtain ⟨passed, own, stands⟩ := stands_of_mem_markFrom cuts there
      obtain ⟨passed', own', stands'⟩ := stands_of_mem_markFrom cuts there'
      exact inPlace_of_fold? stands stands' folds
  have ascending : (foldNegatives (markFrom false scanned)).Pairwise fun a b => a.stop ≤ b.start :=
    foldNegatives_ascending (markFrom_ascending cuts.ascending.2)
  refine ⟨fun l member => ⟨(placed l member).some, (placed l member).inside, (placed l member).line⟩, ?_⟩
  refine ascending.imp_of_mem fun here there behind => ?_
  have some := (placed _ here).some
  exact ⟨by omega, behind⟩

/-- A negative number behind a comment of two lines, a directive and an empty line. Letters of more than one byte move
the offsets on, and no line. -/
theorem lexemes_in_place_negative : ∃ ls, tokenize "/* é\n */ x\n#é\n\n= -5" = .ok ls ∧
    ls.map (fun l => (l.token, l.start, l.line)) =
      [(.ident "x", 10, 2), (.assign none, 17, 5), (.int (-5), 19, 5)] ∧
    (∀ l ∈ ls, l.start < l.stop ∧ l.stop ≤ "/* é\n */ x\n#é\n\n= -5".utf8ByteSize ∧
      l.line = (Source.lineColumn "/* é\n */ x\n#é\n\n= -5" l.start).1) ∧
    ls.Pairwise fun a b => a.start < b.start ∧ a.stop ≤ b.start := by
  have scanned : scan Place.start "/* é\n */ x\n#é\n\n= -5".toList =
      .ok [⟨.ident "x", 2, 10, 11, false⟩, ⟨.assign none, 5, 17, 18, false⟩, ⟨.operator .minus, 5, 19, 20, false⟩,
        ⟨.int 5, 5, 20, 21, false⟩] := by
    cbv
  have cut : tokenize "/* é\n */ x\n#é\n\n= -5" =
      .ok [⟨.ident "x", 2, 10, 11, false⟩, ⟨.assign none, 5, 17, 18, false⟩, ⟨.int (-5), 5, 19, 21, false⟩] :=
    tokenize_eq_ok_iff.2 ⟨_, cuts_of_scan scanned, rfl⟩
  exact ⟨_, cut, rfl, lexemes_in_place cut⟩

end SmallC
