import BestParse.Grammar.Basic

/-!
# The production tables

A search asks six questions of a grammar: for all binary productions, for those
with a left child, a right child or two children, for the unary productions with
a child, and for the lexical productions of a word.  `Query` names the questions
and `Query.answers` says which expansions answer one.

`find_ofProductions` is the one statement about the tables: the entry of a
question in range lists the numbers of all productions that answer it, in
ascending order.  It comes from one step, `find_add`, which takes up a single
production.
-/

namespace BestParse

/-! ## Questions -/

/-- What a search asks of the production tables. -/
inductive Query where
  | binary
  | left (child : NonTerminal)
  | right (child : NonTerminal)
  | pair (left right : NonTerminal)
  | child (child : NonTerminal)
  | word (word : WordId)

/-- Whether an expansion answers a question. -/
def Query.answers : Query → Expansion → Bool
  | .binary, .binary _ _ => true
  | .left c, .binary l _ => l = c
  | .right c, .binary _ r => r = c
  | .pair c d, .binary l r => l = c && r = d
  | .child c, .unary d => d = c
  | .word v, .lexical w => w = v
  | _, _ => false

namespace Index

/-- The table entry of a question. -/
def find (index : Index) : Query → List ProductionId
  | .binary => index.binary
  | .left c => index.byLeft.getD c []
  | .right c => index.byRight.getD c []
  | .pair c d => index.byPair.getD (c, d) []
  | .child c => index.byChild.getD c []
  | .word w => index.byWord.getD w []

/-- The question is about symbols that the tables have. -/
def InRange (index : Index) : Query → Prop
  | .binary => True
  | .left c => c < index.byLeft.size
  | .right c => c < index.byRight.size
  | .pair _ _ => True
  | .child c => c < index.byChild.size
  | .word w => w < index.byWord.size

/-! ## Taking up one production -/

theorem getD_modify_cons {table : Array (List Nat)} {j k id : Nat} (hk : k < table.size) :
    (table.modify j (id :: ·)).getD k [] =
      if j = k then id :: table.getD k [] else table.getD k [] := by
  rw [Array.getD_eq_getD_getElem?, Array.getD_eq_getD_getElem?, Array.getElem?_modify]
  split
  · simp [hk]
  · rfl

theorem inRange_add {index : Index} (id : ProductionId) (e : Expansion) {q : Query} :
    (index.add id e).InRange q ↔ index.InRange q := by
  cases e with
  | binary l r => cases q <;> simp [add, InRange]
  | unary c => cases q <;> simp [add, InRange]
  | lexical w => cases q <;> simp [add, InRange]

theorem find_eq_nil {index : Index} {q : Query} (h : ¬ index.InRange q) : index.find q = [] := by
  cases q with
  | binary => exact absurd trivial h
  | left c => simp_all [InRange, find, Array.getD_eq_getD_getElem?]
  | right c => simp_all [InRange, find, Array.getD_eq_getD_getElem?]
  | pair c d => exact absurd trivial h
  | child c => simp_all [InRange, find, Array.getD_eq_getD_getElem?]
  | word w => simp_all [InRange, find, Array.getD_eq_getD_getElem?]

/-- A production joins the entries of the questions it answers, and no others. -/
theorem find_add {index : Index} (id : ProductionId) (e : Expansion) {q : Query}
    (h : index.InRange q) :
    (index.add id e).find q = if q.answers e then id :: index.find q else index.find q := by
  cases e with
  | binary l r =>
      cases q with
      | binary => rfl
      | left c => simp only [add, find, Query.answers, getD_modify_cons h, decide_eq_true_eq]
      | right c => simp only [add, find, Query.answers, getD_modify_cons h, decide_eq_true_eq]
      | pair c d =>
          simp only [add, find, Query.answers, Std.TreeMap.getD_insert,
            Std.LawfulEqCmp.compare_eq_iff_eq, Prod.mk.injEq, Bool.and_eq_true, decide_eq_true_eq]
          by_cases hpair : l = c ∧ r = d
          · simp [hpair]
          · simp [hpair]
      | child c => rfl
      | word w => rfl
  | unary b =>
      cases q with
      | binary => rfl
      | left c => rfl
      | right c => rfl
      | pair c d => rfl
      | child c => simp only [add, find, Query.answers, getD_modify_cons h, decide_eq_true_eq]
      | word w => rfl
  | lexical v =>
      cases q with
      | binary => rfl
      | left c => rfl
      | right c => rfl
      | pair c d => rfl
      | child c => rfl
      | word w => simp only [add, find, Query.answers, getD_modify_cons h, decide_eq_true_eq]

/-! ## Whole tables -/

/-- Take up numbered productions, the last one first. -/
def addAll (index : Index) (numbered : List (Production × ProductionId)) : Index :=
  numbered.foldr (fun (p, id) index => index.add id p.expansion) index

theorem inRange_addAll {index : Index} {q : Query} :
    ∀ numbered : List (Production × ProductionId),
      (index.addAll numbered).InRange q ↔ index.InRange q
  | [] => Iff.rfl
  | (p, id) :: rest => (inRange_add id p.expansion).trans (inRange_addAll rest)

theorem find_addAll {index : Index} {q : Query} (h : index.InRange q) :
    ∀ numbered : List (Production × ProductionId),
      (index.addAll numbered).find q =
        (numbered.filter fun entry => q.answers entry.1.expansion).map Prod.snd ++ index.find q
  | [] => rfl
  | (p, id) :: rest => by
      have ih := find_addAll h rest
      change ((index.addAll rest).add id p.expansion).find q = _
      rw [find_add id p.expansion ((inRange_addAll rest).2 h), ih]
      by_cases hq : q.answers p.expansion
      · simp [hq]
      · simp [hq]

theorem getD_replicate_nil (size k : Nat) :
    (Array.replicate size ([] : List Nat)).getD k [] = [] := by
  rw [Array.getD_eq_getD_getElem?, Array.getElem?_replicate]
  split <;> rfl

theorem find_empty (nonterminals words : Nat) (q : Query) :
    (empty nonterminals words).find q = [] := by
  cases q with
  | binary => rfl
  | left c => exact getD_replicate_nil nonterminals c
  | right c => exact getD_replicate_nil nonterminals c
  | pair c d => exact Std.TreeMap.getD_emptyc
  | child c => exact getD_replicate_nil nonterminals c
  | word w => exact getD_replicate_nil words w

theorem ofProductions_eq (nonterminals words : Nat) (productions : Array Production) :
    ofProductions nonterminals words productions =
      (empty nonterminals words).addAll productions.toList.zipIdx := by
  unfold ofProductions addAll
  rw [← Array.foldr_toList, Array.toList_zipIdx]

/-- The numbers of the listed productions that answer a question, from a number on. -/
theorem filter_zipIdx_map_snd (q : Query) :
    ∀ (productions : List Production) (first : Nat),
      ((productions.zipIdx first).filter fun entry => q.answers entry.1.expansion).map Prod.snd =
        (List.range' first productions.length).filter fun id =>
          q.answers (productions.getD (id - first) default).expansion
  | [], first => rfl
  | p :: rest, first => by
      have ih := filter_zipIdx_map_snd q rest (first + 1)
      have htail : (List.range' (first + 1) rest.length).filter (fun id =>
            q.answers ((p :: rest).getD (id - first) default).expansion) =
          (List.range' (first + 1) rest.length).filter fun id =>
            q.answers (rest.getD (id - (first + 1)) default).expansion := by
        apply List.filter_congr
        intro id hid
        rw [List.mem_range'_1] at hid
        rw [show id - first = (id - (first + 1)) + 1 by omega, List.getD_cons_succ]
      rw [List.zipIdx_cons, List.length_cons, List.range'_succ, List.filter_cons, List.filter_cons,
        htail, ← ih]
      simp only [Nat.sub_self, List.getD_cons_zero]
      split
      · rfl
      · rfl

/-- The entry of a question in range lists the productions that answer it. -/
theorem find_ofProductions {nonterminals words : Nat} (productions : Array Production) {q : Query}
    (h : (empty nonterminals words).InRange q) :
    (ofProductions nonterminals words productions).find q =
      (List.range productions.size).filter fun id =>
        q.answers (productions.getD id default).expansion := by
  rw [ofProductions_eq, find_addAll h, find_empty, List.append_nil, filter_zipIdx_map_snd,
    List.range_eq_range', Array.length_toList]
  apply List.filter_congr
  intro id _
  simp [Array.getD_eq_getD_getElem?, List.getD_eq_getElem?_getD]

theorem find_ofProductions_eq_nil {nonterminals words : Nat} (productions : Array Production)
    {q : Query} (h : ¬ (empty nonterminals words).InRange q) :
    (ofProductions nonterminals words productions).find q = [] := by
  rw [ofProductions_eq]
  exact find_eq_nil (mt (inRange_addAll _).1 h)

end Index
end BestParse
