import Jaek.AST
import Jaek.Lexer.Scanner

/-!
# Declarations of global variables

The productions of `eta.cup` for `globalDecl`, with those for types, lists of names and the literals that
may stand behind the equals sign. The grammar needs one token of lookahead, so each production is a
function that reads the front of the token list.

A sign in front of a number is a token, or part of the number when the scanner took `MinInteger`. The two
have productions of their own.
-/

namespace Jaek

/-- Why a file is not read. A parse error names the token it is found at. -/
inductive Rejected
  | lexical (error : LexicalError)
  | parse (sym : Token)
  | numberFormat (text : List Char)
deriving DecidableEq, Repr

namespace GlobalDeclParser

open AST

/-- `Long.parseLong`. -/
def parseLong (text : List Char) : Except Rejected Word :=
  let n := LexUtil.bigInteger text
  if -2 ^ 63 ≤ n ∧ n < 2 ^ 63 then .ok (.ofInt 64 n) else .error (.numberFormat text)

/-- The token at which a parse error is found. -/
def unexpected {α : Type} (tokens : List Token) : Except Rejected α :=
  .error (.parse (tokens.headD .EOF))

def primitiveLiteral : List Token → Except Rejected (Expr Unit × List Token)
  | .INTEGER_LITERAL n :: rest =>
    if n = Scanner.minDigits then .error (.parse (.STRING_LITERAL n))
    else do return (.intLit () (← parseLong n), rest)
  | .CHARACTER_LITERAL c :: rest => .ok (.charLit () c, rest)
  | .keyword ['f', 'a', 'l', 's', 'e'] :: rest => .ok (.boolLit () false, rest)
  | .keyword ['t', 'r', 'u', 'e'] :: rest => .ok (.boolLit () true, rest)
  | tokens => unexpected tokens

/-- The brackets behind a type. -/
def brackets (t : Typ) : List Token → Typ × List Token
  | .symbol ['['] :: .symbol [']'] :: rest => brackets (.array t) rest
  | rest => (t, rest)

def type (extension : String) : List Token → Except Rejected (Typ × List Token)
  | .keyword ['b', 'o', 'o', 'l'] :: rest => .ok (brackets .bool rest)
  | .keyword ['i', 'n', 't'] :: rest => .ok (brackets .int rest)
  | .IDENTIFIER s :: rest =>
    if isEta extension then .error (.parse (.STRING_LITERAL s))
    else .ok (brackets (.recordType (String.ofList s)) rest)
  | tokens => unexpected tokens

/-- The names in front of the colon, behind the first one. -/
def idList (ids : List String) : List Token → Except Rejected (List String × List Token)
  | .symbol [','] :: .IDENTIFIER id :: rest => idList (ids ++ [String.ofList id]) rest
  | .symbol [':'] :: rest => .ok (ids, rest)
  | tokens => unexpected tokens

/-- What may stand behind the equals sign. -/
def initialiser : List Token → Except Rejected (Expr Unit × List Token)
  | .symbol ['-'] :: .INTEGER_LITERAL n :: rest =>
    if n = '-' :: Scanner.minDigits then .error (.parse (.STRING_LITERAL n))
    else do return (.intLit () (← parseLong n), rest)
  | .symbol ['-'] :: rest => unexpected rest
  | tokens => primitiveLiteral tokens

def globalDecl (extension : String) : List Token → Except Rejected (GlobalDecl Unit × List Token)
  | .IDENTIFIER id :: rest => do
    let (ids, rest) ← idList [String.ofList id] rest
    let (t, rest) ← type extension rest
    match ids, rest with
    | [id], .symbol ['='] :: rest =>
      let (pl, rest) ← initialiser rest
      return (⟨[id], t, some pl⟩, rest)
    | ids, rest => return (⟨ids, t, none⟩, rest)
  | tokens => unexpected tokens

/-- `semi`, with the lookahead that ends the declaration without a semicolon. -/
def semi : List Token → Except Rejected (List Token)
  | .symbol [';'] :: rest => .ok rest
  | .IDENTIFIER id :: rest => .ok (.IDENTIFIER id :: rest)
  | .keyword ['r', 'e', 'c', 'o', 'r', 'd'] :: rest => .ok (.keyword ['r', 'e', 'c', 'o', 'r', 'd'] :: rest)
  | .EOF :: rest => .ok (.EOF :: rest)
  | tokens => unexpected tokens

/-- The declaration at the front of a text, and the tokens behind it. -/
def read (extension : String) (text : List Char) :
    Except Rejected (GlobalDecl Unit × List Token) := do
  let tokens ← (Scanner.scan extension text).mapError Rejected.lexical
  let (decl, rest) ← globalDecl extension tokens
  return (decl, ← semi rest)

end GlobalDeclParser

end Jaek
