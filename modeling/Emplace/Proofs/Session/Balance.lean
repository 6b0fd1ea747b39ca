import Emplace.Proofs.Region.Totals
import Emplace.Proofs.Session.Stock

/-
  The books of a session balance.

  A session that begins with nothing goes by turns (`turns_run`), and so does dropping what is left
  in the end (`turns_close`).  Turns keep the ledger, so the ledger of a session is kept at all times
  (`ledger_run`): what is held has told its story so far, under a ticket of its own, and what is no
  longer held was released.  When nothing is held any more, all stories are whole, and the totals of
  the log agree (`log_balanced`).

  That a mapping is refused is no part of any story, as there is no region then.
-/

namespace Emplace.Session

open Event (about Life total)

/-- All that is reported when a session begins with nothing, carries out the steps, and drops in the
    end what is left. -/
def log (kernel : Kernel) (steps : List Step) : List Event :=
  reports (empty.run kernel steps).1 ++ (empty.run kernel steps).2.close

/-- **The ledger is kept at all times.** -/
theorem ledger_run (kernel : Kernel) (steps : List Step) :
    Ledger (empty.run kernel steps).2.stock (reports (empty.run kernel steps).1) := by
  -- which regions code may change is of no account
  have hturns : Turns kernel (fun _ => False) [] empty.stock
      (reports (empty.run kernel steps).1) (empty.run kernel steps).2.stock :=
    turns_run .empty steps fun _ _ _ _ _ => False.elim
  exact Ledger.nothing.turns hturns

theorem ledger_log (kernel : Kernel) (steps : List Step) :
    Ledger ⟨(empty.run kernel steps).2.tickets, []⟩ (log kernel steps) :=
  (ledger_run kernel steps).turns (turns_close kernel (fun _ => False) _ _)

/-- What is held is told of from then on. -/
theorem about_log_ne_nil (kernel : Kernel) (steps more : List Step) {r : Region}
    (hr : r ∈ (empty.run kernel steps).2.stock.held) :
    about r.ticket (log kernel (steps ++ more)) ≠ [] := by
  obtain ⟨o, phase, -, -, rfl, htells⟩ := (ledger_run kernel steps).present r hr
  have hstory : about (o.region phase).ticket (reports (empty.run kernel steps).1) ≠ [] := by
    generalize about (o.region phase).ticket _ = story at htells
    cases htells with
    | empty => nofun
    | holding => nofun
    | altered => nofun
    | lost => nofun
  have hlog : log kernel (steps ++ more) = reports (empty.run kernel steps).1 ++
      (reports ((empty.run kernel steps).2.run kernel more).1 ++
        ((empty.run kernel steps).2.run kernel more).2.close) := by
    rw [log, run_append, reports, List.flatMap_append, List.append_assoc]
    rfl
  rw [hlog, Event.about_append]
  exact List.append_ne_nil_of_left_ne_nil hstory _

/-- **Nothing leaks, and nothing is released twice**, whatever the kernel grants and whatever the
    steps are.  What is reported of any one region, if there is one under the ticket, is a whole life
    of it, and whatever is held at any time has such a life in the end.  So in the log releases
    balance acquisitions, releases without memory balance refusals to make memory executable, and the
    memory released is what was acquired, but for what was lost in those refusals.  A step that is
    refused the mapping that it asks for fails with that, leaves the session as it was but for the
    count of mappings, and reports nothing about any region. -/
theorem log_balanced (kernel : Kernel) (steps : List Step) :
    (∀ ticket, about ticket (log kernel steps) = [] ∨ Life ticket (about ticket (log kernel steps))) ∧
    (∀ r ∈ (empty.run kernel steps).2.stock.held, ∀ more,
      Life r.ticket (about r.ticket (log kernel (steps ++ more)))) ∧
    total Event.acquisitions (log kernel steps) = total Event.releases (log kernel steps) ∧
    total Event.emptyReleases (log kernel steps) = total Event.refusals (log kernel steps) ∧
    total Event.acquiredCapacity (log kernel steps) =
      total Event.releasedCapacity (log kernel steps) +
        total (Event.lostCapacity (log kernel steps)) (log kernel steps) ∧
    ∀ (step : Step) (size : Nat) (strategy : Strategy) (cause : Error) (events : List Event),
      (empty.run kernel steps).2.wants? step = some (size, strategy) →
      Region.acquire kernel (empty.run kernel steps).2.tickets size strategy =
        (.error cause, events) →
      ((empty.run kernel steps).2.perform kernel step).answer = .failed cause ∧
      ((empty.run kernel steps).2.perform kernel step).session =
        { (empty.run kernel steps).2 with tickets := (empty.run kernel steps).2.tickets + 1 } ∧
      ∀ e ∈ ((empty.run kernel steps).2.perform kernel step).events, e.region? = none := by
  have hledger := ledger_log kernel steps
  obtain ⟨hcount, hempty, hcapacity⟩ := hledger.totals
  refine ⟨hledger.life, ?_, hcount, hempty, hcapacity, ?_⟩
  · intro r hr more
    rcases (ledger_log kernel (steps ++ more)).life r.ticket with hnil | hlife
    · exact absurd hnil (about_log_ne_nil kernel steps more hr)
    · exact hlife
  · intro step size strategy cause events hwants hrefused
    exact perform_of_acquire_error hwants hrefused

end Emplace.Session
