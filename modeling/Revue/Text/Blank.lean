/-!
# White space and lines

The white space of this library is the Unicode property White_Space: twenty-five characters, the
no-break space and the line separators among them. Trimming and line splitting work on lists of
characters, with the usual spellings on strings beside them. A line ends at a line feed, and a
carriage return right before that line feed belongs to the ending.
-/

namespace Revue.Text

/-- A character with the Unicode property White_Space. -/
def isBlank (c : Char) : Bool :=
  let n := c.toNat
  (0x9 ≤ n && n ≤ 0xD) || n == 0x20 || n == 0x85 || n == 0xA0 || n == 0x1680 ||
    (0x2000 ≤ n && n ≤ 0x200A) || n == 0x2028 || n == 0x2029 || n == 0x202F || n == 0x205F ||
    n == 0x3000

def isAsciiBlank (c : Char) : Bool :=
  c == ' ' || c == '\t' || c == '\n' || c == '\x0c' || c == '\r'

/-- A letter, digit, underscore or dollar sign of ASCII: what a plain identifier is made of. -/
def isAsciiWord (c : Char) : Bool :=
  c.isAlphanum || c == '_' || c == '$'

/-- A letter, underscore or dollar sign of ASCII: what a plain identifier starts with. -/
def isAsciiWordStart (c : Char) : Bool :=
  c.isAlpha || c == '_' || c == '$'

def trimStart (cs : List Char) : List Char :=
  cs.dropWhile isBlank

def trimEnd (cs : List Char) : List Char :=
  (cs.reverse.dropWhile isBlank).reverse

def trim (cs : List Char) : List Char :=
  trimEnd (trimStart cs)

def isBlankLine (cs : List Char) : Bool :=
  cs.all isBlank

/-- The pieces between separators: one more than there are separators. -/
def pieces (sep : Char) : List Char → List (List Char)
  | [] => [[]]
  | c :: cs =>
    if c = sep then [] :: pieces sep cs
    else match pieces sep cs with
      | [] => [[c]]
      | p :: ps => (c :: p) :: ps

def splitFeeds (cs : List Char) : List (List Char) :=
  pieces '\n' cs

def dropReturn (line : List Char) : List Char :=
  if line.getLast? = some '\r' then line.dropLast else line

/-- Lines of a list of pieces: every piece but the last was ended by a line feed, and the last is
a line only if it holds text. -/
def linesOfPieces : List (List Char) → List (List Char)
  | [] => []
  | [last] => if last.isEmpty then [] else [last]
  | l :: ls => dropReturn l :: linesOfPieces ls

def lines (cs : List Char) : List (List Char) :=
  linesOfPieces (splitFeeds cs)

def contains (word : List Char) : List Char → Bool
  | [] => word.isEmpty
  | c :: cs => word.isPrefixOf (c :: cs) || contains word cs

def joinWith (sep : List Char) : List (List Char) → List Char
  | [] => []
  | [l] => l
  | l :: ls => l ++ sep ++ joinWith sep ls

end Revue.Text
