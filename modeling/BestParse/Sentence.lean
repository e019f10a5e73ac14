import BestParse.Grammar.Basic
import BestParse.Text.Blank

/-!
# Sentences

A sentence is a list of words together with their lexicon entries.  The words
are kept as they were given, for the leaves of a tree.
-/

namespace BestParse

/-- Words and their lexicon entries. -/
structure Sentence where
  /-- The words as given. -/
  words : Array String
  /-- The lexicon entry of each word. -/
  tokens : Array (Option WordId)
deriving DecidableEq

namespace Sentence

/-- Look the words up in the lexicon. -/
def ofWords (g : Grammar) (words : Array String) : Sentence := ⟨words, words.map g.token?⟩

/-- Cut a text at its blanks and look the words up. -/
def ofText (g : Grammar) (text : String) : Sentence :=
  ofWords g ((Text.words text.toList).map String.ofList).toArray

/-- How many words the sentence has. -/
def size (s : Sentence) : Nat := s.tokens.size

/-- The word at a position. -/
def word (s : Sentence) (i : Nat) : String := s.words.getD i ""

/-- The lexicon entry at a position. -/
def token? (s : Sentence) (i : Nat) : Option WordId := s.tokens.getD i none

end Sentence

end BestParse
