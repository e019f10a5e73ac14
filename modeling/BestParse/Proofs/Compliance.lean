import BestParse.Proofs.Parser

/-!
# Limits are obeyed

Every edge that a parser stores obeys the limits of the task (`edges_comply`), whatever the
search and however early it was stopped.

For most of this it is enough that a stored edge is licensed, since the limits are consulted
where edges are made.  No search asks whether a span is open when it makes a unary edge.  But a
unary edge leads to the layer below, and so on down to an edge that is not unary.  Over two
words or more that is a binary edge, and its span was open (`Linked.isOpen_of_holds`).
-/

namespace BestParse

/-- What limits ask of an edge of a kind. -/
def Edge.Complies (limits : Limits) (g : Grammar) (e : Edge) : Kind → Prop
  | .lexical => e.stop = e.start + 1
  | .unary =>
    limits.unaryOpen e.start e.stop = true ∧ limits.allows g e.start e.stop e.parent = true ∧
      (e.start + 2 ≤ e.stop → limits.isOpen e.start e.stop = true)
  | .binary =>
    limits.isOpen e.start e.stop = true ∧
      (limits.splits e.start e.stop).contains e.mid = true ∧
      (∀ width, limits.maxChildWidth = some width →
        e.mid - e.start ≤ width ∧ e.stop - e.mid ≤ width) ∧
      limits.allows g e.start e.stop e.parent = true

namespace Chart
namespace Linked

variable {t : Task} {chain : Nat} {c : Chart}

/-- A span of two words or more that holds an edge is open. -/
theorem isOpen_of_holds (h : c.Linked t chain) (hg : t.grammar.WellFormed) {x : Slot}
    {layer : Nat} (hτ : c.HasTarget ⟨x, layer⟩) (hholds : c.Holds ⟨x, layer⟩)
    (hwide : x.start + 2 ≤ x.stop) : t.limits.isOpen x.start x.stop = true := by
  induction layer using Nat.strongRecOn generalizing x with
  | ind layer ih =>
      obtain ⟨e, he⟩ := Option.isSome_iff_exists.1 hholds
      have hlicensed := h.licensed _ e hτ he
      have hleads := h.leads _ e hτ he
      cases h.target_eq _ e hτ he
      unfold Edge.below at hleads
      cases hexp : (t.grammar.production e.production).expansion with
      | lexical word =>
          obtain ⟨-, hstop, -⟩ := hlicensed.fits_of hexp
          change e.start + 2 ≤ e.stop at hwide
          omega
      | unary child =>
          obtain ⟨-, hlayer, -⟩ := hlicensed.fits_of hexp
          rw [hexp] at hleads
          simp only [List.mem_singleton, forall_eq] at hleads
          exact ih (e.layer - 1) (Nat.sub_lt hlayer Nat.one_pos) (x := ⟨e.start, e.stop, child⟩)
            (hlicensed.hasTarget_child hg h.isFor hexp) hleads hwide
      | binary l r =>
          obtain ⟨-, -, hopen, -⟩ := hlicensed.fits_of hexp
          exact hopen

/-- Every stored edge complies with the limits. -/
theorem complies (h : c.Linked t chain) (hg : t.grammar.WellFormed) {τ : Target} {e : Edge}
    (hτ : c.HasTarget τ) (he : (c.layerAt τ).edge = some e) :
    e.Complies t.limits t.grammar e.kind := by
  have hlicensed := h.licensed τ e hτ he
  have htarget := h.target_eq τ e hτ he
  subst htarget
  rw [hlicensed.kind_eq]
  cases hexp : (t.grammar.production e.production).expansion with
  | lexical word =>
      obtain ⟨-, hstop, -⟩ := hlicensed.fits_of hexp
      exact hstop
  | unary child =>
      obtain ⟨-, -, -, hopen, hallows⟩ := hlicensed.fits_of hexp
      exact ⟨hopen, hallows, h.isOpen_of_holds hg hτ (Option.isSome_iff_exists.2 ⟨e, he⟩)⟩
  | binary l r =>
      obtain ⟨-, -, hopen, hmid, hallows⟩ := hlicensed.fits_of hexp
      exact ⟨hopen, hmid, (Limits.contains_splits.1 hmid).2.2, hallows⟩

end Linked
end Chart

namespace Parser

open Chart

/-- Every edge that a parser stores stands where it says, is of the kind of its production, and
complies with the limits. -/
theorem edges_comply {d : Draft} {t : Task} (hbuild : d.build = .ok t.grammar) (p : Parser)
    {start stop depth : Nat} {nt : NonTerminal} (hspan : IsSpan t.sentence.size start stop)
    (hnt : nt < t.grammar.numNonterminals) (hdepth : depth ≤ p.maxChain) {e : Edge}
    (he : (p.parse t).1.chart.layerEdge start stop nt depth = some e) :
    e.target = ⟨⟨start, stop, nt⟩, depth⟩ ∧
    e.kind = (t.grammar.production e.production).expansion.kind ∧
    e.Complies t.limits t.grammar e.kind := by
  have hg := wellFormed_of_build hbuild
  obtain ⟨hlinked, -⟩ := linked_report hg p
  have hτ := hlinked.isFor.hasTarget_mk hspan hnt hdepth
  exact ⟨hlinked.target_eq _ e hτ he, (hlinked.licensed _ e hτ he).kind_eq,
    hlinked.complies hg hτ he⟩

/-- Under a limit on the width of children, and with a span closed, the edge on top of a chain
over both words is a unary edge over an open span. -/
theorem edges_comply_circular :
    ∃ e, ((Parser.spanFirst { maxChain := 2 }).parse { circularTask with
        limits := { closed := [(1, 2)], maxChildWidth := some 1 } }).1.chart.layerEdge 0 2 1 1 =
          some e ∧
      e.kind = .unary ∧
      e.Complies { closed := [(1, 2)], maxChildWidth := some 1 } circularGrammar .unary := by
  have hkind : (((Parser.spanFirst { maxChain := 2 }).parse { circularTask with
      limits := { closed := [(1, 2)], maxChildWidth := some 1 } }).1.chart.layerEdge 0 2 1 1).map
        Edge.kind = some .unary := by decide +kernel
  obtain ⟨e, he, hunary⟩ := Option.map_eq_some_iff.1 hkind
  obtain ⟨-, -, hcomplies⟩ := edges_comply circularDraft_builds (.spanFirst { maxChain := 2 })
    (t := { circularTask with limits := { closed := [(1, 2)], maxChildWidth := some 1 } })
    (by decide +kernel) (by decide +kernel) (by decide) he
  rw [hunary] at hcomplies
  exact ⟨e, he, hunary, hcomplies⟩

end Parser
end BestParse
