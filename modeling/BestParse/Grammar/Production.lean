import BestParse.Score.Basic

/-!
# Productions

A weighted production expands a nonterminal into two nonterminals, one
nonterminal, or a word.  Nonterminals, words and productions go by number.
-/

namespace BestParse

/-- The number of a nonterminal. -/
abbrev NonTerminal := Nat

/-- The number of a word of the lexicon. -/
abbrev WordId := Nat

/-- The place of a production in its grammar. -/
abbrev ProductionId := Nat

/-- What a production expands its parent into. -/
inductive Expansion where
  | binary (left right : NonTerminal)
  | unary (child : NonTerminal)
  | lexical (word : WordId)
deriving DecidableEq, Inhabited

/-- The three forms of production. -/
inductive Kind where
  | binary
  | unary
  | lexical
deriving DecidableEq

namespace Expansion

/-- The form of an expansion. -/
def kind : Expansion → Kind
  | .binary _ _ => .binary
  | .unary _ => .unary
  | .lexical _ => .lexical

/-- The left or only child. -/
def left? : Expansion → Option NonTerminal
  | .binary l _ => some l
  | .unary c => some c
  | .lexical _ => none

/-- The right child. -/
def right? : Expansion → Option NonTerminal
  | .binary _ r => some r
  | _ => none

/-- The word. -/
def word? : Expansion → Option WordId
  | .lexical w => some w
  | _ => none

end Expansion

/-- A weighted production. -/
structure Production where
  /-- The nonterminal expanded. -/
  parent : NonTerminal
  /-- What it is expanded into. -/
  expansion : Expansion
  /-- The logarithm of the production's probability. -/
  logprob : Score
deriving DecidableEq, Inhabited

end BestParse
