import BestParse.Grammar.Basic
import BestParse.Score.Decimal
import Std.Data.TreeSet.Lemmas

/-!
# Drafts of grammars

A draft collects a start symbol, rules and marks by name.  Building a grammar
from it numbers the symbols in the order of their first appearance, the start
symbol first, and checks the draft:

* a start symbol is declared;
* each rule in turn has a finite log-probability and is not a repetition;
* the nonterminals can be numbered in sixteen bits, and one of those numbers
  stays free for "no child";
* the start symbol is the parent of some rule.

The first check that fails decides the error.  Repetitions are found by
*signatures*, in which the numbers of nonterminals are cut to sixteen bits.
Words are numbered in thirty-two bits, which a draft of fewer rules cannot use
up; their numbers stand uncut in signatures.
-/

namespace BestParse

/-! ## Rules and drafts -/

/-- A production by the names of its symbols. -/
inductive Rule where
  | binary (parent left right : String) (logprob : Score)
  | unary (parent child : String) (logprob : Score)
  | lexical (parent word : String) (logprob : Score)
deriving DecidableEq

/-- The symbols of a rule, written out. -/
def Rule.label : Rule → String
  | .binary p l r _ => p ++ " -> " ++ l ++ " " ++ r
  | .unary p c _ => p ++ " -> " ++ c
  | .lexical p w _ => p ++ " -> " ++ w

/-- The declarations a grammar is built from. -/
structure Draft where
  /-- The start symbol; the last declaration holds. -/
  start : Option String := none
  /-- The rules, in the order of their declaration. -/
  rules : Array Rule := #[]
  /-- Nonterminals marked as factored, whatever their names. -/
  factored : Array String := #[]

/-- Add a rule to a draft. -/
def Draft.addRule (d : Draft) (rule : Rule) : Draft := { d with rules := d.rules.push rule }

/-- Declare the start symbol of a draft. -/
def Draft.setStart (d : Draft) (name : String) : Draft := { d with start := some name }

/-- Mark a nonterminal as factored. -/
def Draft.markFactored (d : Draft) (name : String) : Draft :=
  { d with factored := d.factored.push name }

/-! ## Errors -/

/-- What is wrong with a draft. -/
inductive GrammarError where
  | missingStart
  | unusedStart (name : String)
  | nonFinite (rule : String) (logprob : Score)
  | duplicate (rule : String)
  | tooManyNonterminals (count : Nat)
deriving DecidableEq

/-- The wording of an error. -/
def GrammarError.message : GrammarError → String
  | .missingStart => "no start symbol was declared"
  | .unusedStart name => "start symbol " ++ name ++ " is not the parent of any production"
  | .nonFinite rule logprob =>
    "production " ++ rule ++ " has a non-finite log-probability " ++ logprob.text
  | .duplicate rule => "production " ++ rule ++ " is declared twice"
  | .tooManyNonterminals count =>
    "grammar has " ++ toString count ++ " nonterminals, more than a u16 id can address"

/-! ## Signatures -/

/-- The greatest number of sixteen bits, which no nonterminal of a grammar has. -/
def noChild : Nat := 65535

/-- A symbol number cut to sixteen bits, with `noChild` for an absent symbol. -/
def shortNumber (nt : Option NonTerminal) : Nat := nt.getD noChild % 65536

/-- What tells productions apart: the parent, the two children and the word. -/
abbrev Signature := (Nat × Nat) × (Nat × Nat)

/-- The signature of a production. -/
def Production.signature (p : Production) : Signature :=
  ((shortNumber p.parent, shortNumber p.expansion.left?),
    (shortNumber p.expansion.right?, p.expansion.word?.elim 0 (· + 1)))

/-- A set of signatures. -/
abbrev SignatureSet := Std.TreeSet Signature (@compare Signature (@lexOrd _ _ lexOrd lexOrd))

/-! ## Numbering -/

/-- The symbols and productions numbered so far. -/
structure Numbering where
  /-- The nonterminals. -/
  nonterminals : SymbolTable
  /-- The words. -/
  words : SymbolTable
  /-- The productions. -/
  productions : Array Production
  /-- Their signatures. -/
  seen : SignatureSet

namespace Numbering

/-- Only the start symbol has a number. -/
def init (start : String) : Numbering where
  nonterminals := (SymbolTable.empty.intern start).2
  words := .empty
  productions := #[]
  seen := ∅

/-- Number the symbols of a rule from left to right. -/
def symbols (nonterminals words : SymbolTable) : Rule → Production × SymbolTable × SymbolTable
  | .binary p l r logprob =>
    let (p, nonterminals) := nonterminals.intern p
    let (l, nonterminals) := nonterminals.intern l
    let (r, nonterminals) := nonterminals.intern r
    (⟨p, .binary l r, logprob⟩, nonterminals, words)
  | .unary p c logprob =>
    let (p, nonterminals) := nonterminals.intern p
    let (c, nonterminals) := nonterminals.intern c
    (⟨p, .unary c, logprob⟩, nonterminals, words)
  | .lexical p w logprob =>
    let (p, nonterminals) := nonterminals.intern p
    let (w, words) := words.intern w
    (⟨p, .lexical w, logprob⟩, nonterminals, words)

/-- Number one more rule, unless it is not finite or repeats an earlier one. -/
def add (state : Numbering) (rule : Rule) : Except GrammarError Numbering :=
  let ⟨nonterminals, words, productions, seen⟩ := state
  let (production, nonterminals, words) := symbols nonterminals words rule
  if !production.logprob.isFinite then .error (.nonFinite rule.label production.logprob)
  else if seen.contains production.signature then .error (.duplicate rule.label)
  else
    .ok ⟨nonterminals, words, productions.push production, seen.insert production.signature⟩

end Numbering

/-! ## Building -/

/-- Names that begin with an at sign or hold a bar are those of factored
nonterminals. -/
def hasFactoredName (name : String) : Bool :=
  name.toList.head? = some '@' || name.toList.contains '|'

/-- Build the grammar of a draft. -/
def Draft.build (d : Draft) : Except GrammarError Grammar := do
  match d.start with
  | none => .error .missingStart
  | some start =>
    let state ← d.rules.foldlM Numbering.add (Numbering.init start)
    let nonterminals := d.factored.foldl (fun table name => (table.intern name).2)
      state.nonterminals
    if noChild ≤ nonterminals.size then .error (.tooManyNonterminals nonterminals.size)
    else if !state.productions.any (fun p => p.parent = 0) then .error (.unusedStart start)
    else
      .ok {
        nonterminals
        words := state.words
        productions := state.productions
        index := Index.ofProductions nonterminals.size state.words.size state.productions
        factored := nonterminals.names.map fun name =>
          hasFactoredName name || d.factored.contains name }

end BestParse
