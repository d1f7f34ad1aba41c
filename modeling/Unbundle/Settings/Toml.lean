import Unbundle.Text.Search

/-! Settings files: the part of TOML that settings can be written in, one `key = value` a line. A
value is a string, a whole number, a truth value or a list of strings. All other TOML (tables,
dotted keys, floating point numbers, dates) would name a setting that does not exist or have a type
that no setting has, so a reader of settings may refuse it without looking further. -/

namespace Unbundle.Toml
open Unbundle.Text

inductive Value where
  | text (value : String)
  | number (value : Int)
  | flag (value : Bool)
  | texts (values : List String)
deriving DecidableEq, Repr

abbrev Read (α : Type) := List Char → Option (α × List Char)

def isSpace (c : Char) : Bool := c == ' ' || c == '\t'

/-- Characters that may stand in comments and strings: tabs, and all but control characters. -/
def isShown (c : Char) : Bool := c == '\t' || (0x20 ≤ c.toNat && c.toNat != 0x7F)

def skipSpace (s : List Char) : List Char := s.dropWhile isSpace

def newline? : List Char → Option (List Char)
  | '\n' :: s => some s
  | '\r' :: '\n' :: s => some s
  | _ => none

def skipComment (s : List Char) : List Char :=
  match s with
  | '#' :: rest => rest.dropWhile isShown
  | _ => s

/-- The end of a line, a comment before it included. -/
def lineEnd? (s : List Char) : Option (List Char) :=
  match skipComment (skipSpace s) with
  | [] => some []
  | s => newline? s

/-- Text up to the quote that closes it, which an escape may hide. -/
def untilQuote (quote : Char) (escapes : Bool) : Read (List Char)
  | [] => none
  | c :: s =>
    if c = quote then some ([], s)
    else if escapes && c == '\\' then
      match s with
      | [] => none
      | d :: s => (untilQuote quote escapes s).map fun read => (c :: d :: read.1, read.2)
    else (untilQuote quote escapes s).map fun read => (c :: read.1, read.2)

/-- Three quotes close a text of several lines, and up to two more directly before them belong to
it. -/
def closeTriple (quote : Char) (run : Nat) (rest : List Char) : Option (List Char × List Char) :=
  if 3 ≤ run ∧ run ≤ 5 then some (List.replicate (run - 3) quote, rest) else none

/-- Text up to three quotes; `run` counts the quotes directly before. -/
def untilTriple (quote : Char) (escapes : Bool) (run : Nat) : Read (List Char)
  | [] => closeTriple quote run []
  | c :: s =>
    if c = quote then untilTriple quote escapes (run + 1) s
    else if 3 ≤ run then closeTriple quote run (c :: s)
    else
      let before (own : List Char) (read : List Char × List Char) :=
        (List.replicate run quote ++ own ++ read.1, read.2)
      if escapes && c == '\\' then
        match s with
        | [] => none
        | d :: s => (untilTriple quote escapes 0 s).map (before [c, d])
      else (untilTriple quote escapes 0 s).map (before [c])

def plainNewlines : List Char → List Char
  | '\r' :: '\n' :: s => '\n' :: plainNewlines s
  | c :: s => c :: plainNewlines s
  | [] => []

/-- Where a text stands after a backslash at the end of a line. -/
inductive Gap where
  | none
  /-- Spaces follow the backslash; the line has to end. -/
  | opened
  /-- Spaces and line ends are left out up to the next other character. -/
  | skipping
deriving DecidableEq

/-- Joins lines that end in a backslash with what follows. -/
def joinContinued (gap : Gap) : List Char → Option (List Char)
  | [] => if gap = .opened then none else some []
  | c :: s =>
    if gap = .opened then
      if isSpace c then joinContinued .opened s
      else if c = '\n' then joinContinued .skipping s
      else none
    else if gap = .skipping ∧ (isSpace c || c == '\n') then joinContinued .skipping s
    else if c = '\\' then
      match s with
      | [] => none
      | d :: s =>
        if isSpace d then joinContinued .opened s
        else if d = '\n' then joinContinued .skipping s
        else (joinContinued .none s).map fun rest => c :: d :: rest
    else (joinContinued .none s).map (c :: ·)

def hexDigit? (c : Char) : Option Nat :=
  if c.isDigit then some (c.toNat - '0'.toNat)
  else if 'a' ≤ c ∧ c ≤ 'f' then some (c.toNat - 'a'.toNat + 10)
  else if 'A' ≤ c ∧ c ≤ 'F' then some (c.toNat - 'A'.toNat + 10)
  else none

def ofDigits (base : Nat) (digits : List Nat) : Nat :=
  digits.foldl (fun n digit => n * base + digit) 0

/-- The character with a code point in hexadecimal; surrogates are none. -/
def scalar? (digits : List Char) : Option Char := do
  let code := ofDigits 16 (← digits.mapM hexDigit?)
  if code.isValidChar then some (Char.ofNat code) else none

def escape? : Char → Option Char
  | 'b' => some '\x08'
  | 't' => some '\t'
  | 'n' => some '\n'
  | 'f' => some '\x0c'
  | 'r' => some '\r'
  | '"' => some '"'
  | '\\' => some '\\'
  | _ => none

/-- Replaces escapes. Newlines are allowed in a text of several lines only. -/
def unescape (multiline : Bool) : List Char → Option (List Char)
  | [] => some []
  | '\\' :: 'u' :: a :: b :: c :: d :: s => do
    return (← scalar? [a, b, c, d]) :: (← unescape multiline s)
  | '\\' :: 'U' :: a :: b :: c :: d :: e :: f :: g :: h :: s => do
    return (← scalar? [a, b, c, d, e, f, g, h]) :: (← unescape multiline s)
  | '\\' :: c :: s => do return (← escape? c) :: (← unescape multiline s)
  | c :: s => do
    if c ≠ '\\' ∧ (isShown c || (multiline && c == '\n')) then return c :: (← unescape multiline s)
    else none

/-- A literal text stands as it is. -/
def verbatim (multiline : Bool) (s : List Char) : Option (List Char) :=
  if s.all fun c => isShown c || (multiline && c == '\n') then some s else none

/-- A string within one line. -/
def lineString? : Read String
  | '"' :: s => do
    let (raw, rest) ← untilQuote '"' true s
    return (String.ofList (← unescape false raw), rest)
  | '\'' :: s => do
    let (raw, rest) ← untilQuote '\'' false s
    return (String.ofList (← verbatim false raw), rest)
  | _ => none

/-- A line end directly behind the opening quotes is not part of the text. -/
def dropNewline (s : List Char) : List Char := (newline? s).getD s

def string? : Read String
  | '"' :: '"' :: '"' :: s => do
    let (raw, rest) ← untilTriple '"' true 0 (dropNewline s)
    let joined ← joinContinued .none (plainNewlines raw)
    return (String.ofList (← unescape true joined), rest)
  | '\'' :: '\'' :: '\'' :: s => do
    let (raw, rest) ← untilTriple '\'' false 0 (dropNewline s)
    return (String.ofList (← verbatim true (plainNewlines raw)), rest)
  | s => lineString? s

/-- Digits of a base; single underscores may stand between them. -/
def digits? (digit? : Char → Option Nat) : Read (List Nat)
  | [] => none
  | c :: s => do
    let first ← digit? c
    match s with
    | '_' :: s =>
      let (more, rest) ← digits? digit? s
      return (first :: more, rest)
    | s =>
      match digits? digit? s with
      | some (more, rest) => return (first :: more, rest)
      | none => return ([first], s)

def digitBelow? (base : Nat) (c : Char) : Option Nat := (hexDigit? c).filter (· < base)

def whole? (base : Nat) (s : List Char) : Option (Nat × List Char) := do
  let (digits, rest) ← digits? (digitBelow? base) s
  return (ofDigits base digits, rest)

/-- A number in decimal, without zeros before it. -/
def decimal? : Read Nat
  | '0' :: rest => some (0, rest)
  | s => whole? 10 s

def maxNumber : Int := 9223372036854775807

def minNumber : Int := -9223372036854775808

def number? (s : List Char) : Option (Int × List Char) := do
  let (value, rest) ← read s
  if minNumber ≤ value ∧ value ≤ maxNumber then some (value, rest) else none
where
  read : Read Int
    | '0' :: 'x' :: s => (whole? 16 s).map fun read => (read.1, read.2)
    | '0' :: 'o' :: s => (whole? 8 s).map fun read => (read.1, read.2)
    | '0' :: 'b' :: s => (whole? 2 s).map fun read => (read.1, read.2)
    | '+' :: s => (decimal? s).map fun read => (read.1, read.2)
    | '-' :: s => (decimal? s).map fun read => (-read.1, read.2)
    | s => (decimal? s).map fun read => (read.1, read.2)

/-- Spaces, comments and line ends, which separate the values of a list. -/
def skipLayout (fuel : Nat) (s : List Char) : List Char :=
  match fuel with
  | 0 => s
  | fuel + 1 =>
    let s := skipSpace s
    match newline? (skipComment s) with
    | some rest => skipLayout fuel rest
    | none => s

/-- The rest of a list of strings. `fuel` is at least the number of characters left. -/
def listItems? (fuel : Nat) (s : List Char) : Option (List String × List Char) :=
  match fuel, skipLayout s.length s with
  | _, ']' :: rest => some ([], rest)
  | 0, _ => none
  | fuel + 1, s => do
    let (item, rest) ← string? s
    match skipLayout rest.length rest with
    | ',' :: rest =>
      let (items, rest) ← listItems? fuel rest
      return (item :: items, rest)
    | ']' :: rest => return ([item], rest)
    | _ => none

def value? (s : List Char) : Option (Value × List Char) :=
  match after? "true".toList s, after? "false".toList s, s with
  | some rest, _, _ => some (.flag true, rest)
  | _, some rest, _ => some (.flag false, rest)
  | _, _, '[' :: rest => (listItems? rest.length rest).map fun read => (.texts read.1, read.2)
  | _, _, s =>
    match string? s with
    | some (text, rest) => some (.text text, rest)
    | none => (number? s).map fun read => (.number read.1, read.2)

def isBareKey (c : Char) : Bool := c.isAlphanum || c == '_' || c == '-'

def key? (s : List Char) : Option (String × List Char) :=
  match s.span isBareKey with
  | ([], s) => lineString? s
  | (name, rest) => some (String.ofList name, rest)

def entry? (s : List Char) : Option ((String × Value) × List Char) := do
  let (key, rest) ← key? s
  let ('=' :: rest) := skipSpace rest | none
  let (value, rest) ← value? (skipSpace rest)
  return ((key, value), ← lineEnd? rest)

/-- The entries on the lines of a file. `fuel` is at least the number of lines left. -/
def entries? (fuel : Nat) (s : List Char) : Option (List (String × Value)) :=
  match fuel, s with
  | _, [] => some []
  | 0, _ => none
  | fuel + 1, s =>
    match lineEnd? s with
    | some rest => entries? fuel rest
    | none => do
      let (entry, rest) ← entry? (skipSpace s)
      return entry :: (← entries? fuel rest)

/-- The entries of a file, in order. A byte order mark at its start is passed over. -/
def ofText? (text : String) : Option (List (String × Value)) :=
  match text.toList with
  | '\ufeff' :: s => entries? s.length s
  | s => entries? s.length s

end Unbundle.Toml
