/-! A rule for references replaces a pattern wherever it begins a token. Occurrences of the pattern
are taken from left to right without overlap, whether or not they begin a token, so that one which
does not still shuts out those that overlap it. -/

namespace Unbundle.Reference

/-- Characters of a reference: a pattern behind one of them does not begin a token. -/
def isTokenChar (c : Char) : Bool :=
  c.isAlphanum || c == '_' || c == '$' || c == '.'

structure Rule where
  pattern : String
  replacement : String
deriving DecidableEq, Repr

/-- A line under a rule: characters that stay and occurrences that go. -/
inductive Piece where
  | kept (c : Char)
  | replaced
deriving DecidableEq, Repr

/-- Cuts a text at the occurrences of `pattern`. `fresh` says that a token may begin here, `left`
counts the characters still to pass of an occurrence met earlier, and `keep` whether they stay. -/
def cut (pattern : List Char) (fresh : Bool) (left : Nat) (keep : Bool) : List Char → List Piece
  | [] => []
  | c :: s =>
    match left with
    | left + 1 =>
      let rest := cut pattern (!isTokenChar c) left keep s
      if keep then .kept c :: rest else rest
    | 0 =>
      if pattern.isPrefixOf (c :: s) then
        let rest := cut pattern (!isTokenChar c) (pattern.length - 1) (!fresh) s
        if fresh then .replaced :: rest else .kept c :: rest
      else .kept c :: cut pattern (!isTokenChar c) 0 true s

def Piece.text (replacement : List Char) : Piece → List Char
  | .kept c => [c]
  | .replaced => replacement

/-- The empty pattern occurs nowhere. -/
def Rule.pieces (rule : Rule) (line : String) : List Piece :=
  let pattern := rule.pattern.toList
  if pattern.isEmpty then line.toList.map .kept else cut pattern true 0 true line.toList

/-- The line with every occurrence that begins a token replaced. -/
def Rule.apply (rule : Rule) (line : String) : String :=
  String.ofList ((rule.pieces line).flatMap (Piece.text rule.replacement.toList))

/-- Some occurrence begins a token. -/
def Rule.applies (rule : Rule) (line : String) : Bool :=
  (rule.pieces line).contains .replaced

end Unbundle.Reference
