import BestParse.Grammar.Symbols
import BestParse.Grammar.Index

/-!
# Grammars

A grammar in normal form: its nonterminals and words, its productions in the
order of their declaration, and the indexes over them.  The start symbol is the
first nonterminal.  A grammar does not change once it is built.

A word outside the lexicon stands for the lexicon entry `UNK` when there is one;
otherwise it has no number and no productions.
-/

namespace BestParse

/-- A weighted grammar whose productions have two, one or no nonterminal children. -/
structure Grammar where
  /-- The nonterminals; the start symbol is the first. -/
  nonterminals : SymbolTable
  /-- The words of the lexicon. -/
  words : SymbolTable
  /-- The productions, by number. -/
  productions : Array Production
  /-- The productions by what they expand into. -/
  index : Index
  /-- Which nonterminals only stand for the inside of a longer production. -/
  factored : Array Bool

/-- The lexicon entry for words outside the lexicon. -/
def unknownName : String := "UNK"

namespace Grammar

/-! ## Symbols -/

/-- How many nonterminals the grammar has. -/
def numNonterminals (g : Grammar) : Nat := g.nonterminals.size

/-- How many productions the grammar has. -/
def numProductions (g : Grammar) : Nat := g.productions.size

/-- The start symbol. -/
def start (_ : Grammar) : NonTerminal := 0

/-- The number of a nonterminal. -/
def nonterminal? (g : Grammar) (name : String) : Option NonTerminal := g.nonterminals.find? name

/-- The name of a nonterminal. -/
def nonterminalName (g : Grammar) (nt : NonTerminal) : String := g.nonterminals.name nt

/-- The number of a word of the lexicon. -/
def word? (g : Grammar) (name : String) : Option WordId := g.words.find? name

/-- The word that stands for all words outside the lexicon. -/
def unknown? (g : Grammar) : Option WordId := g.word? unknownName

/-- The lexicon entry of a word in a sentence. -/
def token? (g : Grammar) (name : String) : Option WordId := (g.word? name).or g.unknown?

/-- The name of a lexicon entry. -/
def wordName (g : Grammar) : Option WordId → String
  | some w => g.words.name w
  | none => unknownName

/-- Whether a nonterminal only stands for the inside of a longer production. -/
def isFactored (g : Grammar) (nt : NonTerminal) : Bool := g.factored.getD nt false

/-! ## Productions -/

/-- The production of a number. -/
def production (g : Grammar) (id : ProductionId) : Production := g.productions.getD id default

/-- All binary productions, in ascending order. -/
def allBinary (g : Grammar) : List ProductionId := g.index.binary

/-- The binary productions with a left child, in ascending order. -/
def binaryWithLeft (g : Grammar) (nt : NonTerminal) : List ProductionId := g.index.byLeft.getD nt []

/-- The binary productions with a right child, in ascending order. -/
def binaryWithRight (g : Grammar) (nt : NonTerminal) : List ProductionId :=
  g.index.byRight.getD nt []

/-- The binary productions with two children, in ascending order. -/
def binaryWithPair (g : Grammar) (left right : NonTerminal) : List ProductionId :=
  g.index.byPair.getD (left, right) []

/-- The unary productions with a child, in ascending order. -/
def unaryWithChild (g : Grammar) (nt : NonTerminal) : List ProductionId := g.index.byChild.getD nt []

/-- The lexical productions of a lexicon entry, in ascending order. -/
def lexicalWith (g : Grammar) : Option WordId → List ProductionId
  | some w => g.index.byWord.getD w []
  | none => []

/-- Whether a nonterminal is the left child of some binary production. -/
def isLeftChild (g : Grammar) (nt : NonTerminal) : Bool := !(g.binaryWithLeft nt).isEmpty

/-- Whether a nonterminal is the right child of some binary production. -/
def isRightChild (g : Grammar) (nt : NonTerminal) : Bool := !(g.binaryWithRight nt).isEmpty

/-- A production with its symbols written out, such as `NP -> DT NN`. -/
def productionText (g : Grammar) (id : ProductionId) : String :=
  let p := g.production id
  let parent := g.nonterminalName p.parent
  match p.expansion with
  | .binary l r => parent ++ " -> " ++ g.nonterminalName l ++ " " ++ g.nonterminalName r
  | .unary c => parent ++ " -> " ++ g.nonterminalName c
  | .lexical w => parent ++ " -> " ++ g.wordName (some w)

end Grammar

end BestParse
