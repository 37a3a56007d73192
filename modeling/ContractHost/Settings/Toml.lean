import ContractHost.Bytes

/-!
# Settings documents

The part of TOML that settings use: pairs `key = value`, where the value is an integer, a boolean,
a string or the choice of an alternative, with comments and empty lines between. A pair ends with
its line; only a string in triple quotes goes over several. A choice is a table of one empty table,
`key = { name = {} }`, and a document that makes one choice and nothing else may do so in a header,
`[key.name]`. Any other text is no settings document, nor is one where a key is given twice.
-/

namespace ContractHost.Toml

inductive Value
  | integer (n : Int)
  | boolean (b : Bool)
  | text (s : String)
  | choice (name : String)
deriving DecidableEq

abbrev Document := List (String × Value)

def isBlank (c : Char) : Bool := c == ' ' || c == '\t'

def skipBlanks (cs : List Char) : List Char := cs.dropWhile isBlank

def isWordChar (c : Char) : Bool := c.isAlphanum || c == '_' || c == '-'

def isCommentChar (c : Char) : Bool := c == '\t' || '\x20' ≤ c

/-- What follows the line of which this is the rest, which may hold blanks and a comment. -/
def endLine? (cs : List Char) : Option (List Char) :=
  let line := match skipBlanks cs with
    | '#' :: comment => comment.dropWhile isCommentChar
    | rest => rest
  match line with
  | [] => some []
  | '\n' :: rest => some rest
  | _ => none

def digit? (base : Nat) (c : Char) : Option Nat := (hexValue? c).filter (· < base)

/-- The digits of a number to some base, first digit first. Single underscores may stand between
digits. -/
def digits? (base : Nat) : List Char → Option (List Nat)
  | [] => none
  | [c] => (digit? base c).map ([·])
  | c :: '_' :: rest => do return (← digit? base c) :: (← digits? base rest)
  | c :: rest => do return (← digit? base c) :: (← digits? base rest)

def ofDigits (base : Nat) (digits : List Nat) : Nat := digits.foldl (fun n d => base * n + d) 0

def decimal? (cs : List Char) : Option Nat :=
  match digits? 10 cs with
  | some (0 :: _ :: _) => none
  | some digits => some (ofDigits 10 digits)
  | none => none

/-- An integer: decimal with an optional minus sign, or hexadecimal, octal or binary. -/
def numeral? (cs : List Char) : Option Int :=
  match cs with
  | '0' :: 'x' :: rest => (digits? 16 rest).map fun ds => Int.ofNat (ofDigits 16 ds)
  | '0' :: 'o' :: rest => (digits? 8 rest).map fun ds => Int.ofNat (ofDigits 8 ds)
  | '0' :: 'b' :: rest => (digits? 2 rest).map fun ds => Int.ofNat (ofDigits 2 ds)
  | '-' :: rest => (decimal? rest).map fun n => -Int.ofNat n
  | _ => (decimal? cs).map Int.ofNat

def integer? (cs : List Char) : Option Int := do
  let n ← match cs with
    | '+' :: rest => numeral? rest
    | _ => numeral? cs
  if Int64.minValue.toInt ≤ n ∧ n ≤ Int64.maxValue.toInt then some n else none

/-- The character with a code given by exactly `width` hexadecimal digits, and the rest. -/
def escapedCode? (width : Nat) (cs : List Char) : Option (Char × List Char) := do
  let code := cs.take width
  let values ← code.mapM hexValue?
  let n := ofDigits 16 values
  if code.length = width ∧ n.isValidChar then some (Char.ofNat n, cs.drop width) else none

/-- What follows a line that a backslash joins to the next text: blanks and line ends between are
skipped. -/
def joinLine? (cs : List Char) : Option (List Char) :=
  match skipBlanks cs with
  | '\n' :: rest => some (rest.dropWhile fun c => isBlank c || c == '\n')
  | _ => none

/-- How a string is quoted. Triple quotes let it go over several lines, and only double quotes let
it have escape sequences. -/
structure Quotation where
  quote : Char
  triple : Bool

namespace Quotation

def width (q : Quotation) : Nat := if q.triple then 3 else 1

/-- The quotation that begins here, and what follows its opening quotes. -/
def open? : List Char → Option (Quotation × List Char)
  | '"' :: '"' :: '"' :: rest => some (⟨'"', true⟩, rest)
  | '\'' :: '\'' :: '\'' :: rest => some (⟨'\'', true⟩, rest)
  | '"' :: rest => some (⟨'"', false⟩, rest)
  | '\'' :: rest => some (⟨'\'', false⟩, rest)
  | _ => none

/-- The end of a quotation that closes here, and what follows its closing quotes. Triple quotes may
have one or two quotes more before them, which belong to the text. -/
def close? (q : Quotation) (cs : List Char) : Option (List Char × List Char) :=
  let run := (cs.takeWhile (· == q.quote)).length
  if run < q.width then none
  else
    let kept := min (run - q.width) (q.width - 1)
    some (List.replicate kept q.quote, cs.drop (kept + q.width))

/-- The character that an escape sequence stands for, if it is not one that joins lines, and what
follows it. -/
def escape? (q : Quotation) : List Char → Option (Option Char × List Char)
  | 'b' :: rest => some ('\x08', rest)
  | 't' :: rest => some ('\t', rest)
  | 'n' :: rest => some ('\n', rest)
  | 'f' :: rest => some ('\x0c', rest)
  | 'r' :: rest => some ('\r', rest)
  | '"' :: rest => some ('"', rest)
  | '\\' :: rest => some ('\\', rest)
  | 'u' :: rest => (escapedCode? 4 rest).map fun (c, rest) => (some c, rest)
  | 'U' :: rest => (escapedCode? 8 rest).map fun (c, rest) => (some c, rest)
  | cs => if q.triple then (joinLine? cs).map fun rest => (none, rest) else none

def admits (q : Quotation) (c : Char) : Bool :=
  c == '\t' || ('\x20' ≤ c && c != '\x7f') || (q.triple && c == '\n')

/-- The character that the next character or escape sequence stands for, and what follows it. -/
def next? (q : Quotation) : List Char → Option (Option Char × List Char)
  | [] => none
  | c :: rest =>
    if c = '\\' ∧ q.quote = '"' then q.escape? rest
    else if q.admits c then some (c, rest)
    else none

/-- The text of a quotation and what follows its closing quotes, given the characters read so far,
last one first. The fuel is the number of characters left. -/
def text? (q : Quotation) : Nat → List Char → List Char → Option (String × List Char)
  | 0, _, _ => none
  | fuel + 1, done, cs =>
    match q.close? cs with
    | some (last, rest) => some (String.ofList (done.reverse ++ last), rest)
    | none => do
      let (c, rest) ← q.next? cs
      q.text? fuel (c.toList ++ done) rest

end Quotation

/-- A string, how it is quoted, and what follows it. A line end right after triple quotes is not
part of the text. -/
def string? (cs : List Char) : Option (Quotation × String × List Char) := do
  let (q, cs) ← Quotation.open? cs
  let body := match q.triple, cs with
    | true, '\n' :: rest => rest
    | _, _ => cs
  let (s, rest) ← q.text? body.length [] body
  return (q, s, rest)

/-- A key is a word or a string on one line. -/
def key? (cs : List Char) : Option (String × List Char) :=
  match cs.takeWhile isWordChar with
  | [] => do
    let (q, key, rest) ← string? cs
    if q.triple then none else some (key, rest)
  | word => some (String.ofList word, cs.dropWhile isWordChar)

def symbol? (c : Char) (cs : List Char) : Option (List Char) :=
  match skipBlanks cs with
  | [] => none
  | d :: rest => if c = d then some rest else none

/-- The name in a table of one empty table, and what follows the table. -/
def choice? (cs : List Char) : Option (String × List Char) := do
  let (name, rest) ← key? (skipBlanks (← symbol? '{' cs))
  let inner ← symbol? '{' (← symbol? '=' rest)
  return (name, ← symbol? '}' (← symbol? '}' inner))

def plain? (cs : List Char) : Option (Value × List Char) :=
  let isNumeral (c : Char) : Bool := isWordChar c || c == '+'
  let word := cs.takeWhile isNumeral
  let rest := cs.dropWhile isNumeral
  if word = "true".toList then some (.boolean true, rest)
  else if word = "false".toList then some (.boolean false, rest)
  else (integer? word).map fun n => (.integer n, rest)

def value? (cs : List Char) : Option (Value × List Char) :=
  ((string? cs).map fun (_, s, rest) => (.text s, rest)) <|>
    ((choice? cs).map fun (name, rest) => (.choice name, rest)) <|> plain? cs

def pair? (cs : List Char) : Option ((String × Value) × List Char) := do
  let (key, rest) ← key? (skipBlanks cs)
  let (value, rest) ← value? (skipBlanks (← symbol? '=' rest))
  return ((key, value), ← endLine? rest)

/-- What follows the lines that hold no pair. The fuel is the number of characters left. -/
def skipLines : Nat → List Char → List Char
  | 0, cs => cs
  | fuel + 1, cs =>
    match endLine? cs with
    | some rest => skipLines fuel rest
    | none => cs

/-- Adds the pairs of a text to a document. The fuel is the number of characters left. -/
def addPairs? : Nat → Document → List Char → Option Document
  | 0, document, cs => if cs.isEmpty then some document else none
  | fuel + 1, document, cs =>
    match skipLines cs.length cs with
    | [] => some document
    | cs => do
      let (pair, rest) ← pair? cs
      if document.any (·.1 == pair.1) then none
      else addPairs? fuel (document ++ [pair]) rest

/-- The keys of a header, with points between, and what follows them. The fuel is the number of
characters left. -/
def path? : Nat → List Char → Option (List String × List Char)
  | 0, _ => none
  | fuel + 1, cs => do
    let (key, rest) ← key? (skipBlanks cs)
    match symbol? '.' rest with
    | none => return ([key], rest)
    | some rest =>
      let (path, rest) ← path? fuel rest
      return (key :: path, rest)

/-- A document that is one header, in single or double brackets. The last of its keys is what the
first one chooses; those between do not matter. -/
def header? (cs : List Char) : Option Document := do
  let (double, rest) ← match skipBlanks cs with
    | '[' :: '[' :: rest => some (true, rest)
    | '[' :: rest => some (false, rest)
    | _ => none
  let (path, rest) ← path? rest.length rest
  let rest ← match skipBlanks rest, double with
    | ']' :: ']' :: rest, true => some rest
    | ']' :: rest, false => some rest
    | _, _ => none
  let rest ← endLine? rest
  match path, skipLines rest.length rest with
  | key :: more, [] => some [(key, .choice (more.getLastD key))]
  | _, _ => none

/-- The characters of a text without the byte order mark it may begin with. -/
def characters (text : String) : List Char :=
  match text.toList with
  | '\ufeff' :: rest => rest
  | cs => cs

/-- Every line end made one newline, also those that have a carriage return before it. -/
def foldLineEnds : List Char → List Char
  | '\r' :: '\n' :: rest => '\n' :: foldLineEnds rest
  | c :: rest => c :: foldLineEnds rest
  | [] => []

/-- The pairs of a document in their order. -/
def parse? (text : String) : Option Document :=
  let cs := foldLineEnds (characters text)
  header? (skipLines cs.length cs) <|> addPairs? cs.length [] cs

end ContractHost.Toml
