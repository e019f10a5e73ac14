import BestParse.Grammar.Draft
import BestParse.Text.Quoted

/-!
# The written form of a grammar

A grammar is written line by line: the start symbol, the binary and unary
productions, a separator, and the lexical productions, each production followed
by its log-probability.

```text
ROOT                      start symbol
S -> NP VP -0.5           binary production
ROOT -> S 0               unary production
===== LEXICON =====
DT -> The 0               lexical production
```

When a grammar is read, a number sign starts a comment, blanks at the ends of a
line and blank lines do not count, and the fields of a production may stand any
blanks apart.  The first line that counts is the start symbol.  Reading stops at
the first malformed line, whose number is counted from one over all lines; the
draft is built only after the last line.
-/

namespace BestParse

/-- The line between the productions and the lexicon. -/
def lexiconSeparator : String := "===== LEXICON ====="

/-! ## Writing -/

namespace Grammar

/-- A production and its log-probability, as a line. -/
def productionLine (g : Grammar) (id : ProductionId) : String :=
  g.productionText id ++ " " ++ (g.production id).logprob.text ++ "\n"

/-- The numbers of the productions that are, or are not, lexical. -/
def productionIds (g : Grammar) (lexical : Bool) : List ProductionId :=
  (List.range g.numProductions).filter fun id =>
    ((g.production id).expansion.kind == .lexical) == lexical

/-- The written form of a grammar. -/
def text (g : Grammar) : String :=
  g.nonterminalName g.start ++ "\n"
    ++ String.join ((g.productionIds false).map g.productionLine)
    ++ lexiconSeparator ++ "\n"
    ++ String.join ((g.productionIds true).map g.productionLine)

end Grammar

/-! ## Errors -/

/-- How many symbols a right-hand side should have. -/
inductive Arity where
  | atLeastOne
  | oneOrTwo
  | one
deriving DecidableEq

/-- An expected number of symbols in words. -/
def Arity.text : Arity → String
  | .atLeastOne => "at least 1"
  | .oneOrTwo => "1 or 2"
  | .one => "1"

/-- Why a text is not the written form of a grammar. -/
inductive ReadError where
  | missingStart
  | missingArrow (line : Nat)
  | arity (line : Nat) (expected : Arity) (found : Nat)
  | invalidNumber (line : Nat) (text : List Char)
  | grammar (error : GrammarError)
deriving DecidableEq

/-- The wording of an error. -/
def ReadError.message : ReadError → String
  | .missingStart => "grammar text has no start symbol line"
  | .missingArrow line =>
    "line " ++ toString line ++ ": expected `->` after the parent symbol"
  | .arity line expected found =>
    "line " ++ toString line ++ ": expected " ++ expected.text
      ++ " symbols on the right-hand side, found " ++ toString found
  | .invalidNumber line text =>
    "line " ++ toString line ++ ": invalid log-probability " ++ String.ofList (Text.quoted text)
  | .grammar error => error.message

/-! ## Reading -/

/-- The part of a written grammar that a line belongs to. -/
inductive Part where
  | start
  | rules
  | lexicon
deriving DecidableEq

/-- What has been read so far. -/
structure Reading where
  /-- The part the next line belongs to. -/
  part : Part := .start
  /-- The declarations so far. -/
  draft : Draft := {}

/-- A line as it counts: without its comment and the blanks at its ends. -/
def significant (raw : List Char) : List Char := Text.trim (raw.takeWhile (· ≠ '#'))

/-- The parent, the symbols on the right and the log-probability of a production. -/
def splitRule (line : Nat) (text : List Char) :
    Except ReadError (List Char × List (List Char) × Score) :=
  match Text.words text with
  | parent :: arrow :: rest =>
    if arrow = ['-', '>'] then
      match rest.getLast? with
      | none => .error (.arity line .atLeastOne 0)
      | some number =>
        match Score.parse? number with
        | none => .error (.invalidNumber line number)
        | some logprob => .ok (parent, rest.dropLast, logprob)
    else .error (.missingArrow line)
  | _ => .error (.missingArrow line)

namespace Reading

/-- Read a production before the separator. -/
def readRule (line : Nat) (text : List Char) : Except ReadError Rule := do
  let (parent, symbols, logprob) ← splitRule line text
  match symbols with
  | [child] => .ok (.unary (String.ofList parent) (String.ofList child) logprob)
  | [left, right] =>
    .ok (.binary (String.ofList parent) (String.ofList left) (String.ofList right) logprob)
  | _ => .error (.arity line .oneOrTwo symbols.length)

/-- Read a production after the separator. -/
def readLexical (line : Nat) (text : List Char) : Except ReadError Rule := do
  let (parent, symbols, logprob) ← splitRule line text
  match symbols with
  | [word] => .ok (.lexical (String.ofList parent) (String.ofList word) logprob)
  | _ => .error (.arity line .one symbols.length)

/-- Read one line, of the number given. -/
def readLine (state : Reading) (line : Nat) (raw : List Char) : Except ReadError Reading :=
  let text := significant raw
  if text.isEmpty then .ok state
  else if text = lexiconSeparator.toList then
    if state.part = .start then .error .missingStart
    else .ok { state with part := .lexicon }
  else
    match state.part with
    | .start => .ok { part := .rules, draft := state.draft.setStart (String.ofList text) }
    | .rules => (readRule line text).map fun rule => { state with draft := state.draft.addRule rule }
    | .lexicon =>
      (readLexical line text).map fun rule => { state with draft := state.draft.addRule rule }

/-- Read lines in order, numbered from the number given. -/
def readLines (state : Reading) (line : Nat) : List (List Char) → Except ReadError Reading
  | [] => .ok state
  | raw :: rest => do
    let state ← state.readLine line raw
    state.readLines (line + 1) rest

end Reading

/-- Read the written form of a grammar. -/
def Grammar.parse (text : String) : Except ReadError Grammar := do
  let state ← ({} : Reading).readLines 1 (Text.lines text.toList)
  if state.part = .start then .error .missingStart
  else state.draft.build.mapError .grammar

end BestParse
