/-!
Blank characters, as the Unicode property White_Space lists them, and the two uses of them: trimming
a line that is quoted in a message and cutting a text into words.
-/
namespace SmallC.Blank

/-- Members of the Unicode property White_Space. -/
def isBlank (c : Char) : Bool :=
  let n := c.toNat
  (9 ≤ n && n ≤ 13) || n == 0x20 || n == 0x85 || n == 0xA0 || n == 0x1680
    || (0x2000 ≤ n && n ≤ 0x200A) || n == 0x2028 || n == 0x2029 || n == 0x202F || n == 0x205F
    || n == 0x3000

/-- Drops the blanks at both ends. -/
def trim (cs : List Char) : List Char :=
  ((cs.dropWhile isBlank).reverse.dropWhile isBlank).reverse

/-- Adds the characters of a word read so far, newest first, to the words that follow it. -/
def closeWord (word : List Char) (words : List String) : List String :=
  if word.isEmpty then words else String.ofList word.reverse :: words

/-- Maximal runs of characters that are not separators, given the word read so far. -/
def wordsFrom (separator : Char → Bool) (word : List Char) : List Char → List String
  | [] => closeWord word []
  | c :: rest =>
    if separator c then closeWord word (wordsFrom separator [] rest)
    else wordsFrom separator (c :: word) rest

/-- Maximal runs of characters that are not separators. -/
def words (separator : Char → Bool) (cs : List Char) : List String :=
  wordsFrom separator [] cs

end SmallC.Blank
