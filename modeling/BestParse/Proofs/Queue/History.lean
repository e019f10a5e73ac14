import Mathlib.Data.List.Induction
import Mathlib.Data.List.Nodup
import BestParse.Search.BestFirst.Basic

/-!
# The history of a queue

What a queue does can be told from its *events* alone: the edges it took in, those it declined,
and those it gave out.  The edges that still wait follow from them (`backlog`), and so does what
comes next.

* A stable queue takes every edge.  A memo queue takes an edge if it is better than the last one
  it took for its target, and that one no longer waits (`takesIn`).
* The edge given out has the greatest figure of merit among those that wait, and among equals
  it is the one that came first (`FirstOf`).

`History` has the lists of events that keep to this.  There is never a choice, so queues that
are asked the same give the same answers, however they keep their edges.  A queue *implements*
a kind when an invariant ties its states to such histories (`Implements`), and then every
sequence of requests leaves a history (`Implements.history_after`).
-/

namespace BestParse

/-! ## What the events tell -/

/-- The edges that were taken in, in order. -/
def pushed (events : List QueueEvent) : List Edge :=
  events.filterMap fun
    | .pushed e => some e
    | _ => none

/-- The edges that were given out, in order. -/
def givenOut (events : List QueueEvent) : List Edge :=
  events.filterMap fun
    | .popped taken => taken
    | _ => none

/-- The edges that were declined, in order. -/
def declined (events : List QueueEvent) : List Edge :=
  events.filterMap fun
    | .declined e => some e
    | _ => none

/-- The last edge that was taken in for a target. -/
def lastFor (events : List QueueEvent) (τ : Target) : Option Edge :=
  (pushed events).reverse.find? fun e => e.target = τ

/-- Whether a queue of a kind takes an edge in. -/
def takesIn (kind : QueueKind) (events : List QueueEvent) (e : Edge) : Bool :=
  match kind with
  | .stable => true
  | .memo => (lastFor events e.target).all fun last => e.fom.improves last.fom

/-- What becomes of the edges that wait.  A memo queue forgets an edge when it takes another
for its target. -/
def outstanding (kind : QueueKind) (waiting : List Edge) : QueueEvent → List Edge
  | .pushed e =>
    match kind with
    | .stable => waiting ++ [e]
    | .memo => waiting.filter (fun x => x.target ≠ e.target) ++ [e]
  | .popped (some e) => waiting.erase e
  | .popped none => waiting
  | .declined _ => waiting

/-- The edges that wait after some events, in the order in which they were taken in. -/
def backlog (kind : QueueKind) (events : List QueueEvent) : List Edge :=
  events.foldl (outstanding kind) []

/-- What became of an edge that was offered. -/
def offerEvent (taken : Bool) (e : Edge) : QueueEvent := if taken then .pushed e else .declined e

section

variable (kind : QueueKind) (events : List QueueEvent) (e : Edge) (τ : Target)

@[simp] theorem backlog_nil : backlog kind [] = [] := rfl

@[simp] theorem backlog_concat (event : QueueEvent) :
    backlog kind (events ++ [event]) = outstanding kind (backlog kind events) event := by
  simp [backlog]

@[simp] theorem pushed_concat_pushed : pushed (events ++ [.pushed e]) = pushed events ++ [e] := by
  simp [pushed]

@[simp] theorem pushed_concat_declined : pushed (events ++ [.declined e]) = pushed events := by
  simp [pushed]

@[simp] theorem pushed_concat_popped (taken : Option Edge) :
    pushed (events ++ [.popped taken]) = pushed events := by
  simp [pushed]

@[simp] theorem givenOut_concat_pushed : givenOut (events ++ [.pushed e]) = givenOut events := by
  simp [givenOut]

@[simp] theorem givenOut_concat_declined :
    givenOut (events ++ [.declined e]) = givenOut events := by
  simp [givenOut]

@[simp] theorem givenOut_concat_popped (taken : Option Edge) :
    givenOut (events ++ [.popped taken]) = givenOut events ++ taken.toList := by
  cases taken <;> simp [givenOut]

@[simp] theorem declined_concat_pushed : declined (events ++ [.pushed e]) = declined events := by
  simp [declined]

@[simp] theorem declined_concat_declined :
    declined (events ++ [.declined e]) = declined events ++ [e] := by
  simp [declined]

@[simp] theorem declined_concat_popped (taken : Option Edge) :
    declined (events ++ [.popped taken]) = declined events := by
  simp [declined]

@[simp] theorem lastFor_nil : lastFor [] τ = none := rfl

@[simp] theorem lastFor_concat_pushed :
    lastFor (events ++ [.pushed e]) τ = if e.target = τ then some e else lastFor events τ := by
  by_cases h : e.target = τ <;> simp [lastFor, h]

@[simp] theorem lastFor_concat_declined :
    lastFor (events ++ [.declined e]) τ = lastFor events τ := by
  simp [lastFor]

@[simp] theorem lastFor_concat_popped (taken : Option Edge) :
    lastFor (events ++ [.popped taken]) τ = lastFor events τ := by
  simp [lastFor]

end

/-! ## The first edge -/

/-- What is given out of the edges that wait: one of the greatest figure of merit, and of these
the one that came first. -/
inductive FirstOf : List Edge → Option Edge → Prop where
  /-- Nothing waits. -/
  | nothing : FirstOf [] none
  /-- The edges before it are worse, and those behind it are no better. -/
  | edge {before after : List Edge} {e : Edge}
      (worse : ∀ f ∈ before, f.fom.rank < e.fom.rank)
      (noBetter : ∀ f ∈ after, f.fom.rank ≤ e.fom.rank) : FirstOf (before ++ e :: after) (some e)

namespace FirstOf

variable {waiting : List Edge} {x y : Option Edge} {e f : Edge}

theorem mem (h : FirstOf waiting (some e)) : e ∈ waiting := by
  cases h
  simp

theorem rank_le (h : FirstOf waiting (some e)) (hf : f ∈ waiting) : f.fom.rank ≤ e.fom.rank := by
  cases h with
  | edge worse noBetter =>
      rcases List.mem_append.1 hf with hf | hf
      · exact Int.le_of_lt (worse f hf)
      · rcases List.mem_cons.1 hf with rfl | hf
        · exact Int.le_refl _
        · exact noBetter f hf

/-- It is the first edge with its figure. -/
theorem find?_eq (h : FirstOf waiting (some e)) :
    waiting.find? (fun f => f.fom.rank = e.fom.rank) = some e := by
  cases h with
  | @edge before after e worse noBetter =>
      have hbefore : before.find? (fun f => f.fom.rank = e.fom.rank) = none := by
        simpa using fun f hf => Int.ne_of_lt (worse f hf)
      simp [hbefore]

/-- Nothing is given out only if nothing waits. -/
theorem eq_nil (h : FirstOf waiting none) : waiting = [] := by
  cases h
  rfl

theorem unique (h : FirstOf waiting x) (h' : FirstOf waiting y) : x = y := by
  cases x with
  | none =>
      cases h
      cases y with
      | none => rfl
      | some f => exact absurd h'.mem List.not_mem_nil
  | some e =>
      cases y with
      | none =>
          cases h'
          exact absurd h.mem List.not_mem_nil
      | some f =>
          have hrank : e.fom.rank = f.fom.rank :=
            Int.le_antisymm (h'.rank_le h.mem) (h.rank_le h'.mem)
          have hfind := h.find?_eq
          rw [hrank, h'.find?_eq] at hfind
          exact hfind.symm

end FirstOf

/-! ## Histories -/

/-- Where a function tells the members of a list apart, it tells which one is missing. -/
theorem mem_erase_iff_of_nodup_map {α β : Type} [DecidableEq α] {f : α → β} {l : List α}
    (hnodup : (l.map f).Nodup) {x y : α} (hx : x ∈ l) : y ∈ l.erase x ↔ y ∈ l ∧ f y ≠ f x := by
  rw [(List.Nodup.of_map _ hnodup).mem_erase_iff, and_comm]
  refine and_congr_right fun hy => not_congr ?_
  exact ⟨fun heq => heq ▸ rfl, fun heq => List.inj_on_of_nodup_map hnodup hy hx heq⟩

/-- The histories of a queue of a kind. -/
inductive History (kind : QueueKind) : List QueueEvent → Prop where
  /-- Nothing has happened. -/
  | start : History kind []
  /-- An edge is offered. -/
  | offer {events : List QueueEvent} (before : History kind events) (e : Edge) :
      History kind (events ++ [offerEvent (takesIn kind events e) e])
  /-- The first edge is given out. -/
  | pop {events : List QueueEvent} (before : History kind events) {taken : Option Edge}
      (first : FirstOf (backlog kind events) taken) : History kind (events ++ [.popped taken])

namespace History

variable {events : List QueueEvent} {e : Edge} {τ : Target}

/-! ### Stable queues -/

/-- A stable queue declines nothing. -/
theorem declined_eq (h : History .stable events) : declined events = [] := by
  induction h with
  | start => rfl
  | offer before e ih => simpa [offerEvent, takesIn] using ih
  | pop before first ih => simpa using ih

/-- What a stable queue took in was given out or still waits, each edge as often as it was
taken in. -/
theorem pushed_perm (h : History .stable events) :
    (pushed events).Perm (givenOut events ++ backlog .stable events) := by
  induction h with
  | start => exact List.Perm.refl _
  | offer before e ih =>
      simpa [offerEvent, takesIn, outstanding] using (ih.append_right [e])
  | @pop events before taken first ih =>
      cases taken with
      | none => simpa [outstanding] using ih
      | some e =>
          have hperm := ih.trans ((List.perm_cons_erase first.mem).append_left _)
          simpa [outstanding] using hperm

/-! ### Memo queues -/

/-- The edges that wait in a memo queue have different targets. -/
theorem nodup_targets (h : History .memo events) :
    ((backlog .memo events).map Edge.target).Nodup := by
  induction h with
  | start => exact List.nodup_nil
  | @offer events before e ih =>
      cases htaken : takesIn .memo events e with
      | false => simpa [offerEvent, outstanding] using ih
      | true =>
          have hothers : (((backlog .memo events).filter fun x => x.target ≠ e.target).map
              Edge.target).Nodup := ih.sublist (List.filter_sublist.map Edge.target)
          simp only [offerEvent, if_true, backlog_concat, outstanding, List.map_append]
          refine hothers.append (List.nodup_singleton _) ?_
          simp
  | @pop events before taken first ih =>
      cases taken with
      | none => simpa [outstanding] using ih
      | some e =>
          simp only [backlog_concat, outstanding]
          exact ih.sublist (List.erase_sublist.map Edge.target)

/-- An edge that waits in a memo queue is the last one taken in for its target. -/
theorem lastFor_of_mem (h : History .memo events) (he : e ∈ backlog .memo events) :
    lastFor events e.target = some e := by
  induction h with
  | start => cases he
  | @offer events before f ih =>
      cases htaken : takesIn .memo events f with
      | false =>
          simp only [htaken, offerEvent, Bool.false_eq_true, if_false, backlog_concat,
            outstanding] at he
          simpa [offerEvent] using ih he
      | true =>
          simp only [htaken, offerEvent, if_true, backlog_concat, outstanding, List.mem_append,
            List.mem_filter, decide_eq_true_eq, List.mem_singleton] at he
          rcases he with ⟨he, hne⟩ | rfl
          · simpa [offerEvent, Ne.symm hne] using ih he
          · simp [offerEvent]
  | @pop events before taken first ih =>
      cases taken with
      | none =>
          simp only [backlog_concat, outstanding] at he
          simpa using ih he
      | some f =>
          simp only [backlog_concat, outstanding] at he
          simpa using ih (List.mem_of_mem_erase he)

end History

/-! ## Queues that are asked -/

/-- What can be asked of a queue. -/
inductive QueueRequest where
  /-- Take an edge in. -/
  | push (e : Edge)
  /-- Give the first edge out. -/
  | pop
  /-- Forget all edges. -/
  | reset

/-- What was asked when the events happened. -/
def asked (events : List QueueEvent) : List QueueRequest :=
  events.map fun
    | .pushed e => .push e
    | .declined e => .push e
    | .popped _ => .pop

@[simp] theorem asked_concat_offer (events : List QueueEvent) (taken : Bool) (e : Edge) :
    asked (events ++ [offerEvent taken e]) = asked events ++ [.push e] := by
  cases taken <;> simp [asked, offerEvent]

@[simp] theorem asked_concat_popped (events : List QueueEvent) (taken : Option Edge) :
    asked (events ++ [.popped taken]) = asked events ++ [.pop] := by
  simp [asked]

/-- What a queue with states of a type can do. -/
structure QueueOps (σ : Type) where
  push : σ → Edge → Bool × σ
  pop : σ → Option Edge × σ
  reset : σ → σ

/-- A queue with its events since the last reset. -/
structure Served (σ : Type) where
  queue : σ
  events : List QueueEvent

namespace QueueOps

variable {σ σ' : Type} {kind : QueueKind}

/-- Do what is asked, and note what happened. -/
def serve (ops : QueueOps σ) (s : Served σ) : QueueRequest → Served σ
  | .push e =>
    let (taken, queue) := ops.push s.queue e
    ⟨queue, s.events ++ [offerEvent taken e]⟩
  | .pop =>
    let (taken, queue) := ops.pop s.queue
    ⟨queue, s.events ++ [.popped taken]⟩
  | .reset => ⟨ops.reset s.queue, []⟩

/-- Do all that is asked, in order, beginning with a new queue. -/
def after (ops : QueueOps σ) (new : σ) (requests : List QueueRequest) : Served σ :=
  requests.foldl ops.serve ⟨new, []⟩

/-- Under an invariant of states and events, the queue does what queues of the kind do. -/
structure Implements (ops : QueueOps σ) (kind : QueueKind)
    (I : σ → List QueueEvent → Prop) : Prop where
  /-- It takes in what the kind takes in. -/
  takes : ∀ {q events}, History kind events → I q events → ∀ e,
    (ops.push q e).1 = takesIn kind events e
  /-- It gives out the first edge that waits. -/
  gives : ∀ {q events}, History kind events → I q events →
    FirstOf (backlog kind events) (ops.pop q).1
  push : ∀ {q events}, History kind events → I q events → ∀ e,
    I (ops.push q e).2 (events ++ [offerEvent (takesIn kind events e) e])
  pop : ∀ {q events}, History kind events → I q events →
    I (ops.pop q).2 (events ++ [.popped (ops.pop q).1])
  reset : ∀ {q events}, I q events → I (ops.reset q) []

@[simp] theorem after_concat (ops : QueueOps σ) (new : σ) (requests : List QueueRequest)
    (request : QueueRequest) :
    ops.after new (requests ++ [request]) = ops.serve (ops.after new requests) request := by
  simp [after]

namespace Implements

variable {ops : QueueOps σ} {ops' : QueueOps σ'} {I : σ → List QueueEvent → Prop}
  {I' : σ' → List QueueEvent → Prop} {s : Served σ} {s' : Served σ'} {new : σ} {new' : σ'}

/-- One request keeps the invariant and continues the history. -/
theorem serve (h : ops.Implements kind I) (hhistory : History kind s.events)
    (hI : I s.queue s.events) (request : QueueRequest) :
    History kind (ops.serve s request).events ∧
      I (ops.serve s request).queue (ops.serve s request).events := by
  cases request with
  | push e =>
      have htakes := h.takes hhistory hI e
      simp only [QueueOps.serve, htakes]
      exact ⟨hhistory.offer e, h.push hhistory hI e⟩
  | pop => exact ⟨hhistory.pop (h.gives hhistory hI), h.pop hhistory hI⟩
  | reset => exact ⟨.start, h.reset hI⟩

/-- Whatever is asked, the events are a history, and the invariant holds. -/
theorem history_after (h : ops.Implements kind I) (hnew : I new []) (requests : List QueueRequest) :
    History kind (ops.after new requests).events ∧
      I (ops.after new requests).queue (ops.after new requests).events := by
  induction requests using List.reverseRecOn with
  | nil => exact ⟨.start, hnew⟩
  | append_singleton requests request ih =>
      rw [after_concat]
      exact h.serve ih.1 ih.2 request

/-- Two queues of one kind with the same history answer a request alike. -/
theorem serve_events_eq (h : ops.Implements kind I) (h' : ops'.Implements kind I')
    (hhistory : History kind s.events) (hI : I s.queue s.events) (hI' : I' s'.queue s'.events)
    (heq : s.events = s'.events) (request : QueueRequest) :
    (ops.serve s request).events = (ops'.serve s' request).events := by
  have hhistory' := heq ▸ hhistory
  cases request with
  | push e =>
      simp only [QueueOps.serve, h.takes hhistory hI, h'.takes hhistory' hI', heq]
  | pop =>
      have hgives := h'.gives hhistory' hI'
      rw [← heq] at hgives
      simp only [QueueOps.serve, (h.gives hhistory hI).unique hgives, heq]
  | reset => rfl

/-- Two queues of one kind answer alike whatever is asked. -/
theorem events_eq (h : ops.Implements kind I) (h' : ops'.Implements kind I') (hnew : I new [])
    (hnew' : I' new' []) (requests : List QueueRequest) :
    (ops.after new requests).events = (ops'.after new' requests).events := by
  induction requests using List.reverseRecOn with
  | nil => rfl
  | append_singleton requests request ih =>
      obtain ⟨hhistory, hI⟩ := h.history_after hnew requests
      obtain ⟨-, hI'⟩ := h'.history_after hnew' requests
      rw [after_concat, after_concat]
      exact h.serve_events_eq h' hhistory hI hI' ih request

/-- A queue that is asked the same as in a history of its kind gives this history. -/
theorem after_asked (h : ops.Implements kind I) (hnew : I new []) {events : List QueueEvent}
    (hhistory : History kind events) : (ops.after new (asked events)).events = events := by
  induction hhistory with
  | start => rfl
  | @offer events before e ih =>
      obtain ⟨hhistory, hI⟩ := h.history_after hnew (asked events)
      rw [asked_concat_offer, after_concat]
      simp only [QueueOps.serve, h.takes hhistory hI, ih]
  | @pop events before taken first ih =>
      obtain ⟨hhistory, hI⟩ := h.history_after hnew (asked events)
      have hgives := h.gives hhistory hI
      rw [ih] at hgives
      rw [asked_concat_popped, after_concat]
      simp only [QueueOps.serve, hgives.unique first, ih]

end Implements
end QueueOps

end BestParse
