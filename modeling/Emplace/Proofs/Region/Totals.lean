import Mathlib.Algebra.BigOperators.Group.Finset.Piecewise
import Mathlib.Algebra.GroupWithZero.Nat
import Emplace.Proofs.Region.Ledger

/-
  What the log adds up to.

  A sum over a log is the sum over all tickets of what the log says about them
  (`Event.total_eq_sum_about`), as what is about no region counts for nothing.  So whatever balances
  in every life balances in a log that consists of lives, and that is what a ledger has become when
  nothing is held any more (`Ledger.totals`).

  1. **Counts.**  Acquisitions and releases, releases without memory and refusals, the memory that
     was acquired, released and lost.

  2. **Lives.**  In each life these balance, as only its ends count, and the refusal in the middle
     (`Life.total_used`).

  3. **Logs.**  In each log they balance ticket by ticket.
-/

namespace Emplace

open Event (about Life)

/-! ## Counts -/

namespace Event

/-- The sum of what the events of a log count for. -/
def total (count : Event → Nat) (log : List Event) : Nat := (log.map count).sum

/-- An acquisition counts once. -/
def acquisitions : Event → Nat
  | acquired .. => 1
  | _ => 0

def releases : Event → Nat
  | released .. => 1
  | _ => 0

/-- A release counts if no memory was left to release. -/
def emptyReleases : Event → Nat
  | released _ _ 0 => 1
  | _ => 0

def refusals : Event → Nat
  | sealRefused .. => 1
  | _ => 0

def acquiredCapacity : Event → Nat
  | acquired _ _ capacity _ _ => capacity
  | _ => 0

def releasedCapacity : Event → Nat
  | released _ _ capacity => capacity
  | _ => 0

/-- Whether the log says that the kernel refused to make the region executable. -/
def refuses (log : List Event) (ticket : Nat) : Bool :=
  log.any fun e =>
    match e with
    | sealRefused region _ => region = ticket
    | _ => false

/-- An acquisition counts for its capacity if the region is refused in the log. -/
def lostCapacity (log : List Event) : Event → Nat
  | acquired region _ capacity _ _ => if refuses log region then capacity else 0
  | _ => 0

/-- The event counts for nothing at all. -/
structure CountsNothing (e : Event) : Prop where
  acquisitions : acquisitions e = 0
  releases : releases e = 0
  emptyReleases : emptyReleases e = 0
  refusals : refusals e = 0
  acquiredCapacity : acquiredCapacity e = 0
  capacities : ∀ log, releasedCapacity e + lostCapacity log e = 0

/-- What is about no region counts for nothing. -/
theorem counts_nothing {e : Event} (h : e.region? = none) : e.CountsNothing := by
  cases e with
  | mappingRefused => exact ⟨rfl, rfl, rfl, rfl, rfl, fun _ => rfl⟩
  | siteResolved => exact ⟨rfl, rfl, rfl, rfl, rfl, fun _ => rfl⟩
  | greetingLoaded => exact ⟨rfl, rfl, rfl, rfl, rfl, fun _ => rfl⟩
  | commandFailed => exact ⟨rfl, rfl, rfl, rfl, rfl, fun _ => rfl⟩
  | _ => cases h

theorem refuses_iff {log : List Event} {ticket : Nat} :
    refuses log ticket = true ↔ ∃ cause, .sealRefused ticket cause ∈ log := by
  rw [refuses, List.any_eq_true]
  constructor
  · rintro ⟨e, he, hmatch⟩
    cases e with
    | sealRefused region cause =>
      obtain rfl : region = ticket := of_decide_eq_true hmatch
      exact ⟨cause, he⟩
    | _ => cases hmatch
  · rintro ⟨cause, hcause⟩
    exact ⟨_, hcause, decide_eq_true rfl⟩

/-- Whether a region is refused can be seen from what is said about it. -/
theorem refuses_about (log : List Event) (ticket : Nat) :
    refuses (about ticket log) ticket = refuses log ticket := by
  rw [Bool.eq_iff_iff, refuses_iff, refuses_iff]
  constructor
  · rintro ⟨cause, hcause⟩
    exact ⟨cause, (mem_about.mp hcause).1⟩
  · rintro ⟨cause, hcause⟩
    exact ⟨cause, mem_about.mpr ⟨hcause, rfl⟩⟩

theorem total_cons (count : Event → Nat) (e : Event) (log : List Event) :
    total count (e :: log) = count e + total count log :=
  List.sum_cons

theorem total_append (count : Event → Nat) (front back : List Event) :
    total count (front ++ back) = total count front + total count back := by
  rw [total, total, total, List.map_append, List.sum_append]

theorem total_add (count count' : Event → Nat) (log : List Event) :
    total (fun e => count e + count' e) log = total count log + total count' log :=
  List.sum_map_add

theorem total_eq_zero {count : Event → Nat} {log : List Event} (h : ∀ e ∈ log, count e = 0) :
    total count log = 0 := by
  apply List.sum_eq_zero
  intro x hx
  obtain ⟨e, he, rfl⟩ := List.mem_map.mp hx
  exact h e he

theorem about_cons_of_ne {ticket : Nat} {e : Event} (h : e.region? ≠ some ticket)
    (log : List Event) : about ticket (e :: log) = about ticket log :=
  List.filter_cons_of_neg (by rw [decide_eq_true_eq]; exact h)

theorem about_cons_of_eq {ticket : Nat} {e : Event} (h : e.region? = some ticket)
    (log : List Event) : about ticket (e :: log) = e :: about ticket log :=
  List.filter_cons_of_pos (decide_eq_true h)

/-- **What is summed up over a log is summed up ticket by ticket.** -/
theorem total_eq_sum_about {count : Event → Nat} (hcount : ∀ e, e.region? = none → count e = 0)
    {n : Nat} {log : List Event} (h : ∀ e ∈ log, ∀ ticket, e.region? = some ticket → ticket < n) :
    total count log = ∑ ticket ∈ Finset.range n, total count (about ticket log) := by
  induction log with
  | nil =>
    symm
    apply Finset.sum_eq_zero
    intro ticket _
    rfl
  | cons e log ih =>
    have hlog := ih fun e' he' => h e' (List.mem_cons_of_mem e he')
    rw [total_cons, hlog]
    cases hregion : e.region? with
    | none =>
      rw [hcount e hregion, Nat.zero_add]
      apply Finset.sum_congr rfl
      intro ticket _
      rw [about_cons_of_ne (by rw [hregion]; nofun)]
    | some own =>
      have hown : own ∈ Finset.range n :=
        Finset.mem_range.mpr (h e (List.mem_cons_self ..) own hregion)
      have hsplit : ∀ ticket, total count (about ticket (e :: log)) =
          (if own = ticket then count e else 0) + total count (about ticket log) := by
        intro ticket
        by_cases heq : own = ticket
        · rw [about_cons_of_eq (by rw [hregion, heq]), total_cons, if_pos heq]
        · rw [about_cons_of_ne (by rw [hregion]; exact fun hsome => heq (Option.some.inj hsome)),
            if_neg heq, Nat.zero_add]
      simp only [hsplit, Finset.sum_add_distrib, Finset.sum_ite_eq, hown, if_true]

/-- What balances for every ticket balances in the log. -/
theorem total_eq_of_about {count count' : Event → Nat}
    (hcount : ∀ e, e.region? = none → count e = 0) (hcount' : ∀ e, e.region? = none → count' e = 0)
    {n : Nat} {log : List Event} (h : ∀ e ∈ log, ∀ ticket, e.region? = some ticket → ticket < n)
    (habout : ∀ ticket, total count (about ticket log) = total count' (about ticket log)) :
    total count log = total count' log := by
  rw [total_eq_sum_about hcount h, total_eq_sum_about hcount' h]
  apply Finset.sum_congr rfl
  intro ticket _
  exact habout ticket

/-! ## Lives -/

namespace Life

variable {ticket : Nat} {story : List Event}

/-- In a life, only its ends count, and the refusal in the middle. -/
theorem total_used (count : Event → Nat) {size capacity length : Nat} {base : Word}
    {strategy : Strategy} {bindings : List Event}
    (hbindings : ∀ e ∈ bindings, ∃ args returns,
      e = .callableBound ticket base length args returns)
    (hcount : ∀ args returns, count (.callableBound ticket base length args returns) = 0)
    (hloaded : count (.payloadLoaded ticket length base) = 0) :
    total count (.acquired ticket size capacity base strategy ::
        .payloadLoaded ticket length base :: (bindings ++ [.released ticket base capacity])) =
      count (.acquired ticket size capacity base strategy) +
        count (.released ticket base capacity) := by
  have hzero : total count bindings = 0 := by
    apply total_eq_zero
    intro e he
    obtain ⟨args, returns, rfl⟩ := hbindings e he
    exact hcount args returns
  rw [total_cons, total_cons, total_append, hzero, hloaded, total_cons]
  show _ + (0 + (0 + (_ + 0))) = _
  omega

/-- What is acquired is released once. -/
theorem acquisitions_eq (h : Life ticket story) :
    total acquisitions story = total releases story := by
  cases h with
  | unused => rfl
  | refused => rfl
  | used hcapacity hbase hbindings =>
    rw [total_used _ hbindings (fun _ _ => rfl) rfl, total_used _ hbindings (fun _ _ => rfl) rfl]
    rfl

/-- Only what is refused is released without its memory. -/
theorem emptyReleases_eq (h : Life ticket story) :
    total emptyReleases story = total refusals story := by
  have hempty : ∀ {capacity : Nat} {base : Word}, 0 < capacity →
      emptyReleases (.released ticket base capacity) = 0 := by
    intro capacity base hcapacity
    cases capacity with
    | zero => cases hcapacity
    | succ n => rfl
  cases h with
  | unused hcapacity =>
    show 0 + (emptyReleases _ + 0) = 0
    rw [hempty hcapacity]
  | refused => rfl
  | used hcapacity hbase hbindings =>
    rw [total_used _ hbindings (fun _ _ => rfl) rfl, total_used _ hbindings (fun _ _ => rfl) rfl,
      hempty hcapacity]
    rfl

/-- The kernel refuses once at most. -/
theorem refusals_le (h : Life ticket story) : total refusals story ≤ 1 := by
  cases h with
  | unused => exact Nat.zero_le 1
  | refused => exact Nat.le_refl 1
  | used hcapacity hbase hbindings =>
    rw [total_used _ hbindings (fun _ _ => rfl) rfl]
    exact Nat.zero_le 1

/-- All memory is released that was not lost. -/
theorem acquiredCapacity_eq {log : List Event} (h : Life ticket (about ticket log)) :
    total acquiredCapacity (about ticket log) =
      total (fun e => releasedCapacity e + lostCapacity log e) (about ticket log) := by
  have hrefuses := refuses_about log ticket
  generalize about ticket log = story at h hrefuses ⊢
  cases h with
  | @unused size capacity base strategy =>
    have hlost : refuses log ticket = false := hrefuses.symm
    simp [total, acquiredCapacity, releasedCapacity, lostCapacity, hlost]
  | @refused size capacity base strategy cause =>
    have hlost : refuses log ticket = true := by
      rw [← hrefuses]
      exact refuses_iff.mpr ⟨cause, by simp⟩
    simp [total, acquiredCapacity, releasedCapacity, lostCapacity, hlost]
  | @used size capacity length base strategy bindings hcapacity hbase hbindings =>
    have hlost : refuses log ticket = false := by
      rw [← hrefuses, Bool.eq_false_iff]
      intro hrefused
      obtain ⟨cause, hcause⟩ := refuses_iff.mp hrefused
      simp only [List.mem_cons, List.mem_append, reduceCtorEq, List.not_mem_nil, false_or,
        or_false] at hcause
      obtain ⟨args, returns, hbinding⟩ := hbindings _ hcause
      cases hbinding
    rw [total_used _ hbindings (fun _ _ => rfl) rfl, total_used _ hbindings (fun _ _ => rfl) rfl]
    simp [acquiredCapacity, releasedCapacity, lostCapacity, hlost]

end Life

end Event

/-! ## Logs -/

namespace Ledger

variable {n : Nat} {log : List Event}

/-- **The books balance in the end**: releases with acquisitions, empty ones with refusals, and the
    memory released with what was acquired, but for what was lost. -/
theorem totals (h : Ledger ⟨n, []⟩ log) :
    Event.total Event.acquisitions log = Event.total Event.releases log ∧
    Event.total Event.emptyReleases log = Event.total Event.refusals log ∧
    Event.total Event.acquiredCapacity log =
      Event.total Event.releasedCapacity log + Event.total (Event.lostCapacity log) log := by
  have hbalance : ∀ {count count' : Event → Nat}, (∀ e, e.region? = none → count e = 0) →
      (∀ e, e.region? = none → count' e = 0) →
      (∀ ticket, Life ticket (about ticket log) →
        Event.total count (about ticket log) = Event.total count' (about ticket log)) →
      Event.total count log = Event.total count' log := by
    intro count count' hcount hcount' hlife
    refine Event.total_eq_of_about hcount hcount' h.given ?_
    intro ticket
    rcases h.life ticket with hnil | hwhole
    · rw [hnil]
      rfl
    · exact hlife ticket hwhole
  refine ⟨?_, ?_, ?_⟩
  · refine hbalance ?_ ?_ fun _ => Life.acquisitions_eq
    · exact fun e he => (Event.counts_nothing he).acquisitions
    · exact fun e he => (Event.counts_nothing he).releases
  · refine hbalance ?_ ?_ fun _ => Life.emptyReleases_eq
    · exact fun e he => (Event.counts_nothing he).emptyReleases
    · exact fun e he => (Event.counts_nothing he).refusals
  · rw [← Event.total_add]
    refine hbalance ?_ ?_ fun _ => Life.acquiredCapacity_eq
    · exact fun e he => (Event.counts_nothing he).acquiredCapacity
    · exact fun e he => (Event.counts_nothing he).capacities log

end Ledger

end Emplace
