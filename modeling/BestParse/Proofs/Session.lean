import BestParse.Session
import BestParse.Proofs.BottomUp.Filler
import BestParse.Proofs.BestFirst.Buffered
import BestParse.Proofs.SpanFirst.Buffered

/-!
# Sentences do not affect each other

A session keeps the buffers of its search, and the search may have been stopped anywhere.  Still
every sentence is parsed as if it were the first one.

`Session.Serves` says what a session keeps of the parser it was started with: for bottom-up search
its discovery, for best-first search its settings, and for span-first search a clean table.  Every
parse reports what the parser without buffers reports and leaves this as it is.
-/

namespace BestParse
namespace Session

/-- A session, after any sentences, still works as a parser does with a grammar. -/
inductive Serves (g : Grammar) : Parser → Session → Prop where
  | bottomUp {b : BottomUp} {d : BottomUp.Desk} (serves : d.Serves b) :
      Serves g (.bottomUp b) ⟨g, .bottomUp d⟩
  | bestFirst {b : BestFirst} {d : BestFirst.Desk} (alike : d.parser.Alike b) :
      Serves g (.bestFirst b) ⟨g, .bestFirst d⟩
  | spanFirst {p : SpanFirst} : Serves g (.spanFirst p) ⟨g, .spanFirst (p.desk g)⟩

variable {g : Grammar} {p : Parser} {s s' : Session} {job : Job}

theorem serves_start (g : Grammar) (p : Parser) : Serves g p (start g p) := by
  cases p with
  | bottomUp b => exact .bottomUp (.desk b)
  | bestFirst b => exact .bestFirst (.refl b)
  | spanFirst p => exact .spanFirst

/-! ## One sentence -/

theorem parse_bottomUp (d : BottomUp.Desk) :
    Session.parse ⟨g, .bottomUp d⟩ job =
      ((d.parse (job.task g)).1, ⟨g, .bottomUp (d.parse (job.task g)).2⟩) := by
  simp only [Session.parse]

theorem parse_bestFirst (d : BestFirst.Desk) :
    Session.parse ⟨g, .bestFirst d⟩ job =
      ((d.parse (job.task g)).1, ⟨g, .bestFirst (d.parse (job.task g)).2⟩) := by
  simp only [Session.parse]

theorem parse_spanFirst (d : SpanFirst.Desk) :
    Session.parse ⟨g, .spanFirst d⟩ job =
      ((d.parse (job.task g)).1, ⟨g, .spanFirst (d.parse (job.task g)).2⟩) := by
  simp only [Session.parse]

/-- The report is that of the parser without buffers, and the session works as before. -/
theorem Serves.parse (hg : g.WellFormed) (h : Serves g p s) (job : Job) :
    (s.parse job).1 = (p.parse (job.task g)).1 ∧ Serves g p (s.parse job).2 := by
  cases h with
  | @bottomUp b d serves =>
      rw [parse_bottomUp]
      exact ⟨serves.parse_fst _, .bottomUp (serves.parse_snd _)⟩
  | @bestFirst b d alike =>
      have halike := (BestFirst.alike_parse d.parser (job.task g)).trans alike
      rw [← d.parser_parse] at halike
      rw [parse_bestFirst]
      exact ⟨(d.parse_fst _).trans (alike.parse_fst _), .bestFirst halike⟩
  | @spanFirst p =>
      have hd : (p.desk g).parse (job.task g) = (p.parse (job.task g), p.desk g) :=
        SpanFirst.desk_parse (t := job.task g) hg p
      rw [parse_spanFirst, hd]
      exact ⟨rfl, .spanFirst⟩

/-- Whatever a session has parsed before, it works as its parser does. -/
theorem serves_after (hg : g.WellFormed) (p : Parser) (earlier : List Job) :
    Serves g p ((start g p).after earlier) :=
  List.foldlRecOn earlier (fun s job => (Session.parse s job).2) (serves_start g p)
    fun _ h job _ => (h.parse hg job).2

/-! ## What a sentence leaves -/

theorem skipped?_bottomUp (x : Extents) (d : BottomUp.Desk) :
    Session.skipped? ⟨g, .bottomUp d⟩ =
      if d.filler.discovery = .extents then some (d.filler.extentsOr x).skipped else none := by
  obtain ⟨filler, maxChain⟩ := d
  cases filler <;> rfl

/-- Nothing that can be inspected tells two sessions apart. -/
structure LooksLike (s s' : Session) : Prop where
  skipped : s.skipped? = s'.skipped?
  ghosts : s.ghosts? = s'.ghosts?
  queued : s.queued? = s'.queued?
  suppressed : s.suppressed? = s'.suppressed?
  phase : s.phase? = s'.phase?
  history : s.history? = s'.history?

/-- Two sessions that work as one parser leave the same behind after the same sentence. -/
theorem Serves.looksLike (h : Serves g p s) (h' : Serves g p s') (job : Job) :
    (s.parse job).2.LooksLike (s'.parse job).2 := by
  cases h with
  | @bottomUp b d serves =>
      obtain @⟨_, d', serves'⟩ := h'
      have hextents := (serves.extents_parse (job.task g)).trans
        (serves'.extents_parse (job.task g)).symm
      have hdiscovery := (serves.parse_snd (job.task g)).discovery.trans
        (serves'.parse_snd (job.task g)).discovery.symm
      rw [parse_bottomUp, parse_bottomUp]
      refine ⟨?_, rfl, rfl, rfl, rfl, rfl⟩
      rw [skipped?_bottomUp, skipped?_bottomUp, hextents, hdiscovery]
  | @bestFirst b d alike =>
      obtain _ | @⟨_, d', alike'⟩ := h'
      have hleft := (alike.trans alike'.symm).parse_snd (job.task g)
      rw [← d.parser_parse, ← d'.parser_parse] at hleft
      obtain ⟨hfrontier, hqueue, hphase, hhistory⟩ := hleft
      rw [parse_bestFirst, parse_bestFirst]
      exact
        { skipped := rfl
          ghosts := congrArg Frontier.ghosts? hfrontier
          queued := congrArg (fun q => some (EdgeQueue.size q)) hqueue
          suppressed := congrArg EdgeQueue.suppressed? hqueue
          phase := congrArg some hphase
          history := congrArg some hhistory }
  | @spanFirst p =>
      cases h'
      exact ⟨rfl, rfl, rfl, rfl, rfl, rfl⟩

/-! ## Any number of sentences -/

/-- What is known of the parser without buffers is so of every sentence of a session. -/
theorem report_after {d : Draft} (hbuild : d.build = .ok g) (p : Parser) (earlier : List Job)
    (job : Job) :
    (((start g p).after earlier).parse job).1 = (p.parse (job.task g)).1 :=
  ((serves_after (wellFormed_of_build hbuild) p earlier).parse (wellFormed_of_build hbuild) job).1

/-- Every sentence of a session is parsed as if it were the first one, whatever was parsed
before it and however these parses ended: the report is the same, and so is all that can be
inspected afterwards. -/
theorem parse_after {d : Draft} (hbuild : d.build = .ok g) (p : Parser) (earlier : List Job)
    (job : Job) :
    let used := ((start g p).after earlier).parse job
    let fresh := (start g p).parse job
    used.1 = fresh.1 ∧ used.2.LooksLike fresh.2 :=
  ⟨(report_after hbuild p earlier job).trans (report_after hbuild p [] job).symm,
    (serves_after (wellFormed_of_build hbuild) p earlier).looksLike (serves_start g p) job⟩

/-- A search that is stopped after two edges leaves others waiting.  The next sentence, of one
word, does not meet them. -/
theorem parse_after_circular :
    let p : Parser := .bestFirst
      { BestFirst.new .ghost .inside .memo with maxChain := 2, maxPops := 2 }
    let stopped := (start circularGrammar p).after
      [{ sentence := .ofWords circularGrammar #["a", "a", "a"] }]
    let next := stopped.parse { sentence := .ofWords circularGrammar #["a"] }
    stopped.queued? = some 4 ∧ stopped.ghosts? = some 3 ∧ next.1.outcome = .parsed ∧
      next.2.queued? = some 0 ∧ next.2.ghosts? = some 0 := by
  intro p stopped next
  obtain ⟨hreport, hlooks⟩ := parse_after circularDraft_builds p
    [{ sentence := .ofWords circularGrammar #["a", "a", "a"] }]
    { sentence := .ofWords circularGrammar #["a"] }
  have hparsed : ((start circularGrammar p).parse
      { sentence := .ofWords circularGrammar #["a"] }).1.outcome = .parsed := by decide +kernel
  have hempty : ((start circularGrammar p).parse
      { sentence := .ofWords circularGrammar #["a"] }).2.queued? = some 0 ∧
    ((start circularGrammar p).parse
      { sentence := .ofWords circularGrammar #["a"] }).2.ghosts? = some 0 := by decide +kernel
  refine ⟨by decide +kernel, by decide +kernel, ?_, ?_, ?_⟩
  · exact (congrArg Report.outcome hreport).trans hparsed
  · exact hlooks.queued.trans hempty.1
  · exact hlooks.ghosts.trans hempty.2

end Session
end BestParse
