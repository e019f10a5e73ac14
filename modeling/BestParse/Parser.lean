import BestParse.Search.BottomUp.Basic
import BestParse.Search.BestFirst.Basic
import BestParse.Search.SpanFirst

/-!
# Parsers

A parser is one of the three searches with its settings.  It can parse one
sentence after another; what it remembers of a sentence is open to inspection
until the next one.

A configuration chooses a strategy and the settings, and makes a fresh parser for
every sentence.
-/

namespace BestParse

/-- A parser of any kind. -/
inductive Parser where
  | bottomUp (p : BottomUp)
  | bestFirst (p : BestFirst)
  | spanFirst (p : SpanFirst)

/-- Parse a sentence. -/
def Parser.parse : Parser → Task → Report × Parser
  | .bottomUp p, t =>
    let (report, p) := p.parse t
    (report, .bottomUp p)
  | .bestFirst p, t =>
    let (report, p) := p.parse t
    (report, .bestFirst p)
  | .spanFirst p, t => (p.parse t, .spanFirst p)

/-- Parse several sentences with one parser. -/
def Parser.parseAll (p : Parser) : List Task → List (Report × Parser)
  | [] => []
  | t :: ts =>
    let (report, p) := p.parse t
    (report, p) :: p.parseAll ts

/-- The ways to search. -/
inductive Strategy where
  | bottomUp (discovery : Discovery)
  | bestFirst (frontier : FrontierKind) (rule : CommitRule)
  | spanFirst
deriving DecidableEq

/-- A strategy with its settings. -/
structure Config where
  strategy : Strategy := .bottomUp .leftLists
  /-- The longest run of unary productions over a span. -/
  maxChain : Nat := 1
  /-- How many edges may be taken or spans visited; zero means any number. -/
  maxPops : Nat := 0
  /-- How many binary edges a visit of a span may admit; zero means any number. -/
  maxLocal : Nat := 0
  /-- Whether the edge queue keeps one edge for each target. -/
  memoize : Bool := false
deriving DecidableEq

/-- A fresh parser of a configuration. -/
def Config.parser (c : Config) : Parser :=
  match c.strategy with
  | .bottomUp discovery => .bottomUp { discovery, maxChain := c.maxChain }
  | .bestFirst frontier rule =>
    .bestFirst
      { BestFirst.new frontier rule (if c.memoize then .memo else .stable) with
        maxChain := c.maxChain
        maxPops := c.maxPops }
  | .spanFirst =>
    .spanFirst { maxChain := c.maxChain, maxVisits := c.maxPops, maxLocal := c.maxLocal }

/-- Parse a sentence with a fresh parser. -/
def Config.parse (c : Config) (t : Task) : Report := (c.parser.parse t).1

end BestParse
