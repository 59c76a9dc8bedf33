/-! Blank characters, and the cuts of a text that depend on them. A text is a list of
characters; a character is blank when Unicode gives it the property White_Space. -/
namespace MipsLab.Text

def isBlank (c : Char) : Bool :=
  let n := c.toNat
  (9 ≤ n && n ≤ 13) || n == 0x20 || n == 0x85 || n == 0xA0 || n == 0x1680 ||
    (0x2000 ≤ n && n ≤ 0x200A) || n == 0x2028 || n == 0x2029 || n == 0x202F || n == 0x205F ||
    n == 0x3000

def trimStart (text : List Char) : List Char := text.dropWhile isBlank

def trimEnd (text : List Char) : List Char := (text.reverse.dropWhile isBlank).reverse

def trim (text : List Char) : List Char := trimEnd (trimStart text)

/-- The text before the first character that satisfies `p`, that character, and what follows. -/
def cutFirst (p : Char → Bool) : List Char → Option (List Char × Char × List Char)
  | [] => none
  | c :: rest =>
    if p c then some ([], c, rest)
    else (cutFirst p rest).map fun (before, found, after) => (c :: before, found, after)

/-- The text before the last character that satisfies `p`, that character, and what follows. -/
def cutLast (p : Char → Bool) (text : List Char) : Option (List Char × Char × List Char) :=
  (cutFirst p text.reverse).map fun (after, found, before) =>
    (before.reverse, found, after.reverse)

/-- Drops `start` from the front of a text that begins with it. -/
def dropStart? : (start text : List Char) → Option (List Char)
  | [], text => some text
  | _ :: _, [] => none
  | s :: start, c :: text => if s = c then dropStart? start text else none

/-- Drops `ending` from the end of a text that ends with it. -/
def dropEnd? (ending text : List Char) : Option (List Char) :=
  (dropStart? ending.reverse text.reverse).map List.reverse

/-- The pieces between the characters that satisfy `p`, empty ones included. -/
def pieces (p : Char → Bool) : List Char → List (List Char)
  | [] => [[]]
  | c :: rest =>
    match pieces p rest with
    | [] => [[c]]
    | piece :: others => if p c then [] :: piece :: others else (c :: piece) :: others

/-- The maximal runs of characters that are not blank. -/
def words (text : List Char) : List (List Char) :=
  (pieces isBlank text).filter (· ≠ [])

/-- The lines of a text. A line ends at a newline, or at a carriage return with a newline after
it; an unfinished last line counts unless it is empty. -/
def lines (text : List Char) : List (List Char) :=
  let cut := pieces (· = '\n') text
  let finished := cut.dropLast.map fun line => (dropEnd? ['\r'] line).getD line
  match cut.getLast? with
  | none | some [] => finished
  | some last => finished ++ [last]

/-- The lines of a text with their newlines; the last one may have none. -/
def linesWithEnds (text : String) : List String :=
  let cut := (pieces (· = '\n') text.toList).map String.ofList
  let finished := cut.dropLast.map (· ++ "\n")
  finished ++ (cut.getLast?.filter (· ≠ "")).toList

end MipsLab.Text
