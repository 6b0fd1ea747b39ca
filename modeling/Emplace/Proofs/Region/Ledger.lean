import Mathlib.Data.List.Perm.Basic
import Emplace.Callable
import Emplace.Proofs.Region.Phase

/-
  Regions that come and go, and the log of it.

  A `Stock` is what somebody holds: some regions, and a count of the mappings asked for so far, whose
  next value is the ticket of the next one.  Whatever is done with regions is done in small turns
  (`Turn`): one is acquired, loaded, bound, changed by its code or released.  Each turn has its
  events, and those of a sequence of turns are the log.  What is bound is what the log says was
  loaded.

  1. **Stories.**  `Event.about ticket log` is what the log says of one region.  Of a region that is
     held it is a story that goes with its phase (`Origin.Tells`); of one that was released it is a
     whole `Event.Life`.

  2. **The ledger.**  `Ledger stock log` says so of all tickets at once: those that are held, those
     that were released and those not yet given out.  Every turn keeps the ledger, by one of three
     lemmas: a story begins, goes on, or ends (`Ledger.begin`, `Ledger.resume`, `Ledger.finish`).
-/

namespace Emplace

/-! ## Stories -/

namespace Event

/-- The events about one region, in order. -/
def about (ticket : Nat) (log : List Event) : List Event :=
  log.filter fun e => e.region? = some ticket

/-- All there is to say of a region in the end.  It is acquired with some memory at some address;
    its code is refused, or it is loaded and then bound any number of times, or neither; and it is
    released with what it was acquired with, or with nothing in case it was refused. -/
inductive Life (ticket : Nat) : List Event → Prop
  | unused {size capacity : Nat} {base : Word} {strategy : Strategy} (hcapacity : 0 < capacity)
      (hbase : base ≠ 0) :
      Life ticket [.acquired ticket size capacity base strategy, .released ticket base capacity]
  | refused {size capacity : Nat} {base : Word} {strategy : Strategy} {cause : Denial}
      (hcapacity : 0 < capacity) (hbase : base ≠ 0) :
      Life ticket [.acquired ticket size capacity base strategy, .sealRefused ticket cause,
        .released ticket 0 0]
  | used {size capacity length : Nat} {base : Word} {strategy : Strategy} {bindings : List Event}
      (hcapacity : 0 < capacity) (hbase : base ≠ 0)
      (hbindings : ∀ e ∈ bindings, ∃ args returns,
        e = .callableBound ticket base length args returns) :
      Life ticket (.acquired ticket size capacity base strategy ::
        .payloadLoaded ticket length base :: (bindings ++ [.released ticket base capacity]))

theorem about_append (ticket : Nat) (front back : List Event) :
    about ticket (front ++ back) = about ticket front ++ about ticket back :=
  List.filter_append ..

theorem about_eq_self {ticket : Nat} {events : List Event}
    (h : ∀ e ∈ events, e.region? = some ticket) : about ticket events = events := by
  apply List.filter_eq_self.mpr
  intro e he
  exact decide_eq_true (h e he)

theorem about_eq_nil {ticket : Nat} {events : List Event}
    (h : ∀ e ∈ events, e.region? ≠ some ticket) : about ticket events = [] := by
  apply List.filter_eq_nil_iff.mpr
  intro e he
  rw [decide_eq_true_eq]
  exact h e he

theorem mem_about {ticket : Nat} {log : List Event} {e : Event} :
    e ∈ about ticket log ↔ e ∈ log ∧ e.region? = some ticket := by
  rw [about, List.mem_filter, decide_eq_true_eq]

end Event

open Event (about Life)

namespace Origin

/-- The report of the acquisition. -/
def acquisition (o : Origin) : Event :=
  .acquired o.ticket o.size o.capacity o.place.base o.strategy

/-- What is reported of a region up to the phase that it is in. -/
inductive Tells (o : Origin) : Phase → List Event → Prop
  | empty : Tells o .empty [o.acquisition]
  | holding {image : Image} {bindings : List Event}
      (hbindings : ∀ e ∈ bindings, ∃ args returns,
        e = .callableBound o.ticket o.place.base image.size args returns) :
      Tells o (.holding image)
        (o.acquisition :: .payloadLoaded o.ticket image.size o.place.base :: bindings)
  /-- Nothing is reported of what code does. -/
  | altered {stored : List UInt8} {length : Nat} {bindings : List Event}
      (hbindings : ∀ e ∈ bindings, ∃ args returns,
        e = .callableBound o.ticket o.place.base length args returns) :
      Tells o (.altered stored)
        (o.acquisition :: .payloadLoaded o.ticket length o.place.base :: bindings)
  | lost (cause : Denial) : Tells o .lost [o.acquisition, .sealRefused o.ticket cause]

variable {o : Origin} {phase : Phase} {story : List Event}

/-- The kernel is asked to permit execution only of a region that is empty. -/
theorem eq_empty_of_mappingDenied {kernel : Kernel} {image : Image} {requested : Nat}
    {cause : Denial} (h : o.refusal? kernel image phase = some (.mappingDenied requested cause)) :
    phase = .empty := by
  cases hpending : image.pending with
  | cons s rest =>
    rw [refusal?_of_pending hpending] at h
    cases h
  | nil =>
    by_cases hsize : o.size < image.size
    · rw [refusal?_of_lt hpending hsize] at h
      cases h
    · rw [refusal?_of_le hpending (Nat.le_of_not_lt hsize)] at h
      cases phase with
      | empty => rfl
      | holding old => cases h
      | altered stored => cases h
      | lost => cases h

/-- The report of a load continues the story. -/
theorem Tells.load (h : o.Tells phase story) (kernel : Kernel) (image : Image) :
    o.Tells (o.next kernel image phase) (story ++ o.loadEvents kernel image phase) := by
  unfold next loadEvents
  cases hrefusal : o.refusal? kernel image phase with
  | none =>
    obtain ⟨-, -, rfl, -⟩ := refusal?_eq_none_iff.mp hrefusal
    cases h with
    | empty => exact .holding nofun
  | some e =>
    cases e with
    | mappingDenied requested cause =>
      obtain rfl := eq_empty_of_mappingDenied hrefusal
      cases h with
      | empty => exact .lost cause
    | _ =>
      rw [List.append_nil]
      exact h

/-- The story has one load at most. -/
theorem eq_of_mem_bindings {bindings : List Event} {length length' : Nat} {base : Word}
    (hbindings : ∀ e ∈ bindings, ∃ args returns,
      e = .callableBound o.ticket o.place.base length args returns)
    (hmem : .payloadLoaded o.ticket length' base ∈
      o.acquisition :: .payloadLoaded o.ticket length o.place.base :: bindings) :
    length' = length ∧ base = o.place.base := by
  rcases List.mem_cons.mp hmem with hfirst | hmem
  · cases hfirst
  · rcases List.mem_cons.mp hmem with hsecond | hmem
    · cases hsecond
      exact ⟨rfl, rfl⟩
    · obtain ⟨args, returns, hbinding⟩ := hbindings _ hmem
      cases hbinding

/-- So does the report of binding what was loaded. -/
theorem Tells.bind (h : o.Tells phase story) {length : Nat} {base : Word}
    (hmem : .payloadLoaded o.ticket length base ∈ story) (args : Nat) (returns : Bool) :
    o.Tells phase (story ++ [.callableBound o.ticket base length args returns]) := by
  have hmore : ∀ bindings : List Event, (∀ e ∈ bindings, ∃ args returns,
      e = .callableBound o.ticket o.place.base length args returns) →
      ∀ e ∈ bindings ++ [.callableBound o.ticket o.place.base length args returns],
        ∃ args returns, e = .callableBound o.ticket o.place.base length args returns := by
    intro bindings hbindings e he
    rcases List.mem_append.mp he with he | he
    · exact hbindings e he
    · exact ⟨args, returns, List.mem_singleton.mp he⟩
  cases h with
  | empty => cases List.mem_singleton.mp hmem
  | holding hbindings =>
    obtain ⟨rfl, rfl⟩ := eq_of_mem_bindings hbindings hmem
    exact .holding (hmore _ hbindings)
  | altered hbindings =>
    obtain ⟨rfl, rfl⟩ := eq_of_mem_bindings hbindings hmem
    exact .altered (hmore _ hbindings)
  | lost cause =>
    rcases List.mem_cons.mp hmem with hfirst | hmem
    · cases hfirst
    · cases List.mem_singleton.mp hmem

/-- What code leaves behind has the same story. -/
theorem Tells.ran (h : o.Tells phase story) (hloaded : (o.region phase).loaded = true)
    {after : Phase} (hran : phase.Ran o after) : o.Tells after story := by
  rcases hran with rfl | ⟨stored, -, rfl⟩
  · exact h
  · cases h with
    | empty => cases hloaded
    | holding hbindings => exact .altered hbindings
    | altered hbindings => exact .altered hbindings
    | lost => cases hloaded

/-- A story that is told to the end is a life. -/
theorem Tells.life (h : o.Tells phase story) (hcapacity : 0 < o.capacity) :
    Life o.ticket (story ++ [(o.region phase).release]) := by
  have hbase : o.place.base ≠ 0 := o.place.base_ne_zero
  have hrelease (hphase : phase ≠ .lost) :
      (o.region phase).release = .released o.ticket o.place.base o.capacity := by
    rw [Region.release, o.ticket_region, o.base_region hphase, o.capacity_region hphase]
  cases h with
  | empty =>
    rw [hrelease (by simp)]
    exact .unused hcapacity hbase
  | holding hbindings =>
    rw [hrelease (by simp)]
    exact .used hcapacity hbase hbindings
  | altered hbindings =>
    rw [hrelease (by simp)]
    exact .used hcapacity hbase hbindings
  | lost cause => exact .refused hcapacity hbase

/-- All that a load reports is about the region. -/
theorem region?_of_mem_loadEvents (kernel : Kernel) (image : Image) {e : Event}
    (he : e ∈ o.loadEvents kernel image phase) : e.region? = some o.ticket := by
  unfold loadEvents at he
  split at he
  · obtain rfl := List.mem_singleton.mp he
    rfl
  · obtain rfl := List.mem_singleton.mp he
    rfl
  · cases he

end Origin

/-- The events are the story of the region up to now. -/
def Region.Tells (r : Region) (story : List Event) : Prop :=
  ∃ (o : Origin) (phase : Phase), 0 < o.capacity ∧ o.Allows phase ∧ r = o.region phase ∧
    o.Tells phase story

/-! ## Turns -/

/-- The regions that are held, and how many mappings were asked for so far. -/
structure Stock where
  tickets : Nat
  held : List Region

/-- One thing that is done with regions, with what is reported of it behind a log.  Code changes no
    region for which `steady` holds. -/
inductive Turn (kernel : Kernel) (steady : Region → Prop) (log : List Event) :
    Stock → List Event → Stock → Prop
  /-- Nothing is done, other than putting the regions in another order, or asking in vain. -/
  | quiet {n m : Nat} {held held' : List Region} {events : List Event} (hle : n ≤ m)
      (hheld : held.Perm held') (hevents : ∀ e ∈ events, e.region? = none) :
      Turn kernel steady log ⟨n, held⟩ events ⟨m, held'⟩
  | acquire {n size : Nat} {held : List Region} {strategy : Strategy} {r : Region}
      {events : List Event} (h : Region.acquire kernel n size strategy = (.ok r, events)) :
      Turn kernel steady log ⟨n, held⟩ events ⟨n + 1, r :: held⟩
  | load {n : Nat} {r : Region} {rest : List Region} (image : Image) :
      Turn kernel steady log ⟨n, r :: rest⟩ (r.load kernel image).events
        ⟨n, (r.load kernel image).region :: rest⟩
  | bind {n length : Nat} {r : Region} {rest : List Region}
      (h : .payloadLoaded r.ticket length r.base ∈ log) (args : Nat) (returns : Bool) :
      Turn kernel steady log ⟨n, r :: rest⟩ [.callableBound r.ticket r.base length args returns]
        ⟨n, r :: rest⟩
  | run {n : Nat} {r r' : Region} {rest : List Region} (hunsteady : ¬ steady r)
      (hloaded : r.loaded = true) (hran : r.Ran r') :
      Turn kernel steady log ⟨n, r :: rest⟩ [] ⟨n, r' :: rest⟩
  | release {n : Nat} {r : Region} {rest : List Region} :
      Turn kernel steady log ⟨n, r :: rest⟩ [r.release] ⟨n, rest⟩

/-- Some turns one after the other. -/
inductive Turns (kernel : Kernel) (steady : Region → Prop) :
    List Event → Stock → List Event → Stock → Prop
  | nil (log : List Event) (a : Stock) : Turns kernel steady log a [] a
  | cons {a b c : Stock} {log events more : List Event} (first : Turn kernel steady log a events b)
      (others : Turns kernel steady (log ++ events) b more c) :
      Turns kernel steady log a (events ++ more) c

namespace Turns

variable {kernel : Kernel} {steady : Region → Prop} {a b c : Stock} {log events more : List Event}

theorem single (h : Turn kernel steady log a events b) : Turns kernel steady log a events b := by
  have hall := Turns.cons h (.nil _ b)
  rwa [List.append_nil] at hall

theorem append (h : Turns kernel steady log a events b)
    (h' : Turns kernel steady (log ++ events) b more c) :
    Turns kernel steady log a (events ++ more) c := by
  induction h with
  | nil log a =>
    rw [List.append_nil] at h'
    exact h'
  | cons first others ih =>
    rw [← List.append_assoc] at h'
    rw [List.append_assoc]
    exact .cons first (ih h')

/-- The order of the regions is of no account at the start. -/
theorem of_perm {n : Nat} {held held' : List Region} (hheld : held.Perm held')
    (h : Turns kernel steady log ⟨n, held'⟩ events c) :
    Turns kernel steady log ⟨n, held⟩ events c := by
  have hquiet : Turn kernel steady log ⟨n, held⟩ [] ⟨n, held'⟩ :=
    .quiet (Nat.le_refl n) hheld (List.forall_mem_nil _)
  refine .cons hquiet ?_
  rw [List.append_nil]
  exact h

/-- Nor is it at the end. -/
theorem perm {n : Nat} {held held' : List Region} (h : Turns kernel steady log a events ⟨n, held⟩)
    (hheld : held.Perm held') : Turns kernel steady log a events ⟨n, held'⟩ := by
  have hall := h.append (.single (.quiet (Nat.le_refl n) hheld (List.forall_mem_nil _)))
  rwa [List.append_nil] at hall

end Turns

/-! ## The ledger -/

/-- The log accounts for the stock: each region that is held has told its story up to now, and all
    the others have told all of it, or nothing when there was no such region. -/
structure Ledger (a : Stock) (log : List Event) : Prop where
  given : ∀ e ∈ log, ∀ ticket, e.region? = some ticket → ticket < a.tickets
  below : ∀ r ∈ a.held, r.ticket < a.tickets
  distinct : (a.held.map Region.ticket).Nodup
  present : ∀ r ∈ a.held, r.Tells (about r.ticket log)
  past : ∀ ticket, ticket ∉ a.held.map Region.ticket →
    about ticket log = [] ∨ Life ticket (about ticket log)

namespace Ledger

variable {n m : Nat} {held held' rest : List Region} {r r' : Region} {log events : List Event}

theorem nothing : Ledger ⟨0, []⟩ [] :=
  ⟨nofun, nofun, .nil, nofun, fun _ _ => .inl rfl⟩

/-- Events about no region leave the ledger as it is, and so does counting on. -/
theorem quiet (h : Ledger ⟨n, held⟩ log) (hle : n ≤ m) (hheld : held.Perm held')
    (hevents : ∀ e ∈ events, e.region? = none) : Ledger ⟨m, held'⟩ (log ++ events) := by
  have habout : ∀ ticket, about ticket (log ++ events) = about ticket log := by
    intro ticket
    have hnil : about ticket events = [] := by
      apply Event.about_eq_nil
      intro e he
      rw [hevents e he]
      nofun
    rw [Event.about_append, hnil, List.append_nil]
  constructor
  · intro e he ticket hticket
    rcases List.mem_append.mp he with he | he
    · exact Nat.lt_of_lt_of_le (h.given e he ticket hticket) hle
    · rw [hevents e he] at hticket
      cases hticket
  · intro r hr
    exact Nat.lt_of_lt_of_le (h.below r (hheld.mem_iff.mpr hr)) hle
  · exact (hheld.map _).nodup_iff.mp h.distinct
  · intro r hr
    rw [habout]
    exact h.present r (hheld.mem_iff.mpr hr)
  · intro ticket hticket
    rw [habout]
    exact h.past ticket fun hmem => hticket ((hheld.map _).mem_iff.mp hmem)

/-- What is reported of one region is not about the others. -/
theorem about_other (hevents : ∀ e ∈ events, e.region? = some r.ticket) {ticket : Nat}
    (hne : ticket ≠ r.ticket) : about ticket (log ++ events) = about ticket log := by
  have hnil : about ticket events = [] := by
    apply Event.about_eq_nil
    intro e he heq
    rw [hevents e he] at heq
    exact hne (Option.some.inj heq).symm
  rw [Event.about_append, hnil, List.append_nil]

theorem about_own (hevents : ∀ e ∈ events, e.region? = some r.ticket) :
    about r.ticket (log ++ events) = about r.ticket log ++ events := by
  rw [Event.about_append, Event.about_eq_self hevents]

/-- The next ticket is about no region so far. -/
theorem about_next (h : Ledger ⟨n, held⟩ log) : about n log = [] := by
  apply Event.about_eq_nil
  intro e he hticket
  exact Nat.lt_irrefl n (h.given e he n hticket)

/-- Tickets in the log stay below those that are not given out. -/
theorem given_append (h : Ledger ⟨n, held⟩ log) (hevents : ∀ e ∈ events, e.region? = some r.ticket)
    (hle : n ≤ m) (hlt : r.ticket < m) :
    ∀ e ∈ log ++ events, ∀ ticket, e.region? = some ticket → ticket < m := by
  intro e he ticket heq
  rcases List.mem_append.mp he with he | he
  · exact Nat.lt_of_lt_of_le (h.given e he ticket heq) hle
  · rw [hevents e he] at heq
    obtain rfl := Option.some.inj heq
    exact hlt

/-- What is held beside a region has other tickets. -/
theorem ticket_ne (h : Ledger ⟨n, r :: rest⟩ log) {q : Region} (hq : q ∈ rest) :
    q.ticket ≠ r.ticket := by
  obtain ⟨hnotin, -⟩ := List.nodup_cons.mp h.distinct
  intro heq
  rw [← heq] at hnotin
  exact hnotin (List.mem_map_of_mem hq)

/-- A story begins, under the next ticket. -/
theorem begin (h : Ledger ⟨n, held⟩ log) (hticket : r.ticket = n)
    (hevents : ∀ e ∈ events, e.region? = some r.ticket) (htells : r.Tells events) :
    Ledger ⟨n + 1, r :: held⟩ (log ++ events) := by
  -- all tickets that were given are smaller, so this one has not been told of
  have hother : ∀ q ∈ held, q.ticket ≠ r.ticket := by
    intro q hq heq
    have hlt : q.ticket < n := h.below q hq
    omega
  constructor
  · exact h.given_append hevents (Nat.le_succ n) (hticket ▸ Nat.lt_succ_self n)
  · intro q hq
    show q.ticket < n + 1
    rcases List.mem_cons.mp hq with rfl | hq
    · omega
    · have hlt : q.ticket < n := h.below q hq
      omega
  · refine List.nodup_cons.mpr ⟨?_, h.distinct⟩
    intro hmem
    obtain ⟨q, hq, heq⟩ := List.mem_map.mp hmem
    exact hother q hq heq
  · intro q hq
    rcases List.mem_cons.mp hq with rfl | hq
    · rw [about_own hevents, hticket, h.about_next, List.nil_append]
      exact htells
    · rw [about_other hevents (hother q hq)]
      exact h.present q hq
  · intro ticket hmem
    obtain ⟨hne, hheld⟩ : ticket ≠ r.ticket ∧ ticket ∉ held.map Region.ticket :=
      not_or.mp fun hor => hmem (List.mem_cons.mpr hor)
    rw [about_other hevents hne]
    exact h.past ticket hheld

/-- The story of one region goes on. -/
theorem resume (h : Ledger ⟨n, r :: rest⟩ log) (hticket : r'.ticket = r.ticket)
    (hevents : ∀ e ∈ events, e.region? = some r.ticket)
    (htells : r'.Tells (about r.ticket log ++ events)) :
    Ledger ⟨n, r' :: rest⟩ (log ++ events) := by
  have hlt : r.ticket < n := h.below r (List.mem_cons_self ..)
  -- the same tickets are held as before
  have hmap : (r' :: rest).map Region.ticket = (r :: rest).map Region.ticket := by
    rw [List.map_cons, List.map_cons, hticket]
  constructor
  · exact h.given_append hevents (Nat.le_refl n) hlt
  · intro q hq
    rcases List.mem_cons.mp hq with rfl | hq
    · show q.ticket < n
      rw [hticket]
      exact hlt
    · exact h.below q (List.mem_cons_of_mem r hq)
  · show ((r' :: rest).map Region.ticket).Nodup
    rw [hmap]
    exact h.distinct
  · intro q hq
    rcases List.mem_cons.mp hq with rfl | hq
    · rw [hticket, about_own hevents]
      exact htells
    · rw [about_other hevents (h.ticket_ne hq)]
      exact h.present q (List.mem_cons_of_mem r hq)
  · intro ticket hmem
    replace hmem : ticket ∉ (r :: rest).map Region.ticket := hmap ▸ hmem
    have hne : ticket ≠ r.ticket := fun heq => hmem (List.mem_cons.mpr (.inl heq))
    rw [about_other hevents hne]
    exact h.past ticket hmem

/-- The story of one region ends. -/
theorem finish (h : Ledger ⟨n, r :: rest⟩ log)
    (hevents : ∀ e ∈ events, e.region? = some r.ticket)
    (hlife : Life r.ticket (about r.ticket log ++ events)) : Ledger ⟨n, rest⟩ (log ++ events) := by
  have hlt : r.ticket < n := h.below r (List.mem_cons_self ..)
  constructor
  · exact h.given_append hevents (Nat.le_refl n) hlt
  · intro q hq
    exact h.below q (List.mem_cons_of_mem r hq)
  · exact (List.nodup_cons.mp h.distinct).2
  · intro q hq
    rw [about_other hevents (h.ticket_ne hq)]
    exact h.present q (List.mem_cons_of_mem r hq)
  · -- there is one more ticket that is not held, and its story is whole
    intro ticket hmem
    by_cases heq : ticket = r.ticket
    · subst heq
      rw [about_own hevents]
      exact .inr hlife
    · rw [about_other hevents heq]
      refine h.past ticket ?_
      rintro hcons
      rcases List.mem_cons.mp hcons with hhead | htail
      · exact heq hhead
      · exact hmem htail

/-- **Every turn keeps the ledger.** -/
theorem turn {kernel : Kernel} {steady : Region → Prop} {a b : Stock} (h : Ledger a log)
    (hturn : Turn kernel steady log a events b) : Ledger b (log ++ events) := by
  cases hturn with
  | quiet hle hheld hevents => exact h.quiet hle hheld hevents
  | @acquire n size held strategy r _ hacquire =>
    obtain ⟨capacity, place, hround, -, -, rfl, rfl⟩ := Region.acquire_eq_ok_iff.mp hacquire
    have hle := le_of_roundUp? (by decide) hround
    have hsize : size ≤ capacity := Nat.le_trans (Nat.le_max_left _ _) hle
    have hcapacity : 0 < capacity := Nat.le_trans (Nat.le_max_right _ _) hle
    let o : Origin := ⟨n, size, strategy, capacity, place, hsize⟩
    have htells : (o.region .empty).Tells [o.acquisition] :=
      ⟨o, .empty, hcapacity, trivial, rfl, .empty⟩
    exact h.begin rfl (List.forall_mem_singleton.mpr rfl) htells
  | @load n r rest image =>
    obtain ⟨o, phase, hcapacity, hallows, rfl, htells⟩ := h.present r (List.mem_cons_self ..)
    rw [o.ticket_region] at htells
    rw [o.load_region]
    refine h.resume ?_ ?_ ?_
    · rw [o.ticket_region, o.ticket_region]
    · intro e he
      rw [o.ticket_region]
      exact Origin.region?_of_mem_loadEvents kernel image he
    · rw [o.ticket_region]
      exact ⟨o, _, hcapacity, hallows.next kernel image, rfl, htells.load kernel image⟩
  | @bind n length r rest hloaded args returns =>
    obtain ⟨o, phase, hcapacity, hallows, rfl, htells⟩ := h.present r (List.mem_cons_self ..)
    have hmem := Event.mem_about.mpr ⟨hloaded, rfl⟩
    refine h.resume rfl (List.forall_mem_singleton.mpr rfl) ?_
    rw [o.ticket_region] at htells hmem ⊢
    exact ⟨o, phase, hcapacity, hallows, rfl, htells.bind hmem args returns⟩
  | @run n r r' rest hunsteady hloaded hran =>
    obtain ⟨o, phase, hcapacity, hallows, rfl, htells⟩ := h.present r (List.mem_cons_self ..)
    obtain ⟨after, hafter, rfl⟩ := o.exists_phase_of_ran hloaded hran
    refine h.resume ?_ (List.forall_mem_nil _) ?_
    · rw [o.ticket_region, o.ticket_region]
    · rw [List.append_nil]
      exact ⟨o, after, hcapacity, hallows.ran hafter, rfl, htells.ran hloaded hafter⟩
  | @release n r =>
    obtain ⟨o, phase, hcapacity, -, rfl, htells⟩ := h.present r (List.mem_cons_self ..)
    rw [o.ticket_region] at htells
    refine h.finish (List.forall_mem_singleton.mpr rfl) ?_
    rw [o.ticket_region]
    exact htells.life hcapacity

theorem turns {kernel : Kernel} {steady : Region → Prop} {a b : Stock} (h : Ledger a log)
    (hturns : Turns kernel steady log a events b) : Ledger b (log ++ events) := by
  induction hturns with
  | nil log a =>
    rw [List.append_nil]
    exact h
  | cons first others ih =>
    rw [← List.append_assoc]
    exact ih (h.turn first)

/-- In the end, all stories are whole. -/
theorem life (h : Ledger ⟨n, []⟩ log) (ticket : Nat) :
    about ticket log = [] ∨ Life ticket (about ticket log) :=
  h.past ticket List.not_mem_nil

end Ledger

end Emplace
