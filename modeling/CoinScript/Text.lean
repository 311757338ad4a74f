/-! # Words of a text

Scripts, witnesses and rule lists are written as words. Words are separated by the
characters of the white-space property; a list of names is separated by commas and each
name is trimmed.
-/
namespace CoinScript.Text

/-- The characters that have the white-space property. -/
def isBlank (c : Char) : Bool :=
  let n := c.toNat
  (9 ≤ n && n ≤ 13) || n == 0x20 || n == 0x85 || n == 0xa0 || n == 0x1680
    || (0x2000 ≤ n && n ≤ 0x200a) || n == 0x2028 || n == 0x2029 || n == 0x202f
    || n == 0x205f || n == 0x3000

/-- The pieces between the separators, empty ones included: always one more piece than
there are separators. -/
def splitOn (isSep : Char → Bool) : List Char → List (List Char)
  | [] => [[]]
  | c :: cs =>
    if isSep c then [] :: splitOn isSep cs
    else match splitOn isSep cs with
      | [] => [[c]]
      | piece :: pieces => (c :: piece) :: pieces

/-- The non-empty pieces between blanks. -/
def words (text : List Char) : List (List Char) :=
  (splitOn isBlank text).filter (· ≠ [])

def trim (text : List Char) : List Char :=
  ((text.dropWhile isBlank).reverse.dropWhile isBlank).reverse

/-- The non-empty trimmed entries of a comma-separated list. -/
def entries (text : List Char) : List (List Char) :=
  ((splitOn (· == ',') text).map trim).filter (· ≠ [])

def utf8 (text : List Char) : List UInt8 := text.flatMap String.utf8EncodeChar

def isDigit (c : Char) : Bool := '0' ≤ c && c ≤ '9'

/-- Digits with at most one minus sign in front. -/
def isDecimal : List Char → Bool
  | '-' :: digits => digits ≠ [] && digits.all isDigit
  | digits => digits ≠ [] && digits.all isDigit

def natValue (digits : List Char) : Nat :=
  digits.foldl (fun n c => 10 * n + (c.toNat - 48)) 0

/-- The number that a decimal word denotes. -/
def decimalValue : List Char → Int
  | '-' :: digits => -(natValue digits : Int)
  | digits => natValue digits

/-- The text between single quotes, for a word that starts and ends with one. -/
def unquote? : List Char → Option (List Char)
  | '\'' :: rest => if rest.getLast? = some '\'' then some rest.dropLast else none
  | _ => none

/-- `text` pushed to the right end of a column. -/
def padLeft (width : Nat) (text : String) : String :=
  "".pushn ' ' (width - text.length) ++ text

/-- `text` at the left end of a column. -/
def padRight (width : Nat) (text : String) : String :=
  text ++ "".pushn ' ' (width - text.length)

end CoinScript.Text
