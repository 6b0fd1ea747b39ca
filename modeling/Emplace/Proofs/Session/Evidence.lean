import Emplace.Proofs.Region.Evidence
import Emplace.Proofs.Region.History
import Emplace.Proofs.Session.Balance

/-
  Payloads keep their word.

  A payload proves something about its region when it is made (`Payload.Holds.proves`).  It can be
  used long after that, so nobody else may change the region in the meantime.  Nobody does: no turn
  changes a region that held an image, as long as it is held, but for what its own code stores there
  (`Stock.Keeps.turn`).

  `issued` lists the payloads that a run makes, with the images they are made from.  At all times the
  session vouches for them (`Vouches`), and no answer gives access to any other (`payloads_run`).
-/

namespace Emplace

/-! ## Regions that stay -/

theorem Region.ticket_load (r : Region) (kernel : Kernel) (image : Image) :
    (r.load kernel image).region.ticket = r.ticket := by
  have hstore : ∀ bytes, (r.store kernel bytes).region.ticket = r.ticket := by
    intro bytes
    unfold store
    split
    · rfl
    · split
      · rfl
      · split
        · rfl
        · rfl
      · rfl
      · rfl
  unfold load
  split
  · rfl
  · split
    · rfl
    · dsimp only
      split
      · exact hstore _
      · exact hstore _

/-- The region has its ticket to itself: what is held under it is this very region, as its code has
    left it. -/
structure Stock.Keeps (steady : Region → Prop) (a : Stock) (r : Region) : Prop where
  given : r.ticket < a.tickets
  only : ∀ q ∈ a.held, q.ticket = r.ticket → r.Ran q ∧ (steady r → q = r)

/-- What is held goes by its ticket, and so does what it was before its code ran. -/
theorem Ledger.keeps {steady : Region → Prop} {a : Stock} {log : List Event} (h : Ledger a log)
    {p q : Payload} (hq : q.region ∈ a.held) (hcontinues : Payload.Continues steady p q) :
    a.Keeps steady p.region := by
  have hticket : q.region.ticket = p.region.ticket := hcontinues.ran.remains.ticket
  constructor
  · rw [← hticket]
    exact h.below q.region hq
  · intro r hr heq
    obtain rfl : r = q.region := List.inj_on_of_nodup_map h.distinct hr hq (heq.trans hticket.symm)
    exact ⟨hcontinues.ran, fun hsteady => congrArg Payload.region (hcontinues.same hsteady)⟩

namespace Stock.Keeps

variable {kernel : Kernel} {steady : Region → Prop} {log : List Event} {a b : Stock}
  {events : List Event} {o : Origin} {image : Image}

/-- A load finds no room where an image was loaded before, whatever its code has done. -/
theorem load_of_ran {r : Region} (hran : (o.region (.holding image)).Ran r) (kernel : Kernel)
    (image' : Image) : (r.load kernel image').region = r := by
  obtain ⟨after, hafter, rfl⟩ := o.exists_phase_of_ran rfl hran
  have hne : after ≠ .empty := by
    rcases hafter with rfl | ⟨stored, -, rfl⟩ <;> nofun
  obtain ⟨-, hnext⟩ := o.next_of_ne_empty hne kernel image'
  rw [o.load_region, hnext]

/-- **No turn changes a region that held an image**, unless its own code does. -/
theorem turn (h : a.Keeps steady (o.region (.holding image)))
    (hturn : Turn kernel steady log a events b) : b.Keeps steady (o.region (.holding image)) := by
  cases hturn with
  | quiet hle hheld hevents =>
    refine ⟨Nat.lt_of_lt_of_le h.given hle, ?_⟩
    intro q hq
    exact h.only q (hheld.mem_iff.mpr hq)
  | @acquire n size held strategy r _ hacquire =>
    obtain ⟨capacity, place, -, -, -, rfl, -⟩ := Region.acquire_eq_ok_iff.mp hacquire
    refine ⟨Nat.lt_succ_of_lt h.given, ?_⟩
    intro q hq hticket
    rcases List.mem_cons.mp hq with rfl | hq
    · -- the new region has a ticket that was not given before
      have hlt := h.given
      rw [← hticket] at hlt
      exact absurd hlt (Nat.lt_irrefl n)
    · exact h.only q hq hticket
  | @load n r rest image' =>
    refine ⟨h.given, ?_⟩
    intro q hq hticket
    rcases List.mem_cons.mp hq with rfl | hq
    · rw [Region.ticket_load] at hticket
      have hkept := h.only r (List.mem_cons_self ..) hticket
      rw [load_of_ran hkept.1]
      exact hkept
    · exact h.only q (List.mem_cons_of_mem r hq) hticket
  | bind hmem args returns => exact h
  | @run n r r' rest hunsteady hloaded hran =>
    refine ⟨h.given, ?_⟩
    intro q hq hticket
    rcases List.mem_cons.mp hq with rfl | hq
    · rw [hran.remains.ticket] at hticket
      obtain ⟨hbefore, hsame⟩ := h.only r (List.mem_cons_self ..) hticket
      refine ⟨hbefore.trans hran, fun hsteady => ?_⟩
      rw [hsame hsteady] at hunsteady
      exact absurd hsteady hunsteady
    · exact h.only q (List.mem_cons_of_mem r hq) hticket
  | @release n r rest =>
    refine ⟨h.given, ?_⟩
    intro q hq
    exact h.only q (List.mem_cons_of_mem r hq)

theorem turns (h : a.Keeps steady (o.region (.holding image)))
    (hturns : Turns kernel steady log a events b) :
    b.Keeps steady (o.region (.holding image)) := by
  induction hturns with
  | nil => exact h
  | cons first others ih => exact ih (h.turn first)

end Stock.Keeps

namespace Session

variable {kernel : Kernel} {steady : Region → Prop} {log : List Event} {s : Session}

/-! ## What is issued -/

/-- The payload that a step made, with the image that it was to load. -/
def issuedBy (kernel : Kernel) (s : Session) (step : Step) : List (Payload × Image) :=
  match (s.perform kernel step).answer.made?, s.loads? step with
  | some p, some image => [(p, image)]
  | _, _ => []

/-- All payloads that the steps of a run made. -/
def issued (kernel : Kernel) : Session → List Step → List (Payload × Image)
  | _, [] => []
  | s, step :: steps => s.issuedBy kernel step ++ issued kernel (s.perform kernel step).session steps

theorem mem_issuedBy_iff {step : Step} {p : Payload} {image : Image} :
    (p, image) ∈ s.issuedBy kernel step ↔
      (s.perform kernel step).answer.made? = some p ∧ s.loads? step = some image := by
  unfold issuedBy
  constructor
  · intro h
    split at h
    · rename_i p' image' hmade hloads
      obtain ⟨rfl, rfl⟩ := Prod.mk.inj (List.mem_singleton.mp h)
      exact ⟨hmade, hloads⟩
    · cases h
  · rintro ⟨hmade, hloads⟩
    rw [hmade, hloads]
    exact List.mem_singleton.mpr rfl

/-- All that was issued held good when it was, and so do the routines, which are among it. -/
structure Vouches (steady : Region → Prop) (s : Session) (past : List (Payload × Image)) :
    Prop where
  holds : ∀ p image, (p, image) ∈ past → p.Holds image
  kept : ∀ p image, (p, image) ∈ past → s.stock.Keeps steady p.region
  routines : ∀ routine ∈ s.routines.values,
    ∃ p image, (p, image) ∈ past ∧ Payload.Continues steady p routine.payload

theorem Vouches.empty (steady : Region → Prop) : Vouches steady .empty [] := ⟨nofun, nofun, nofun⟩

/-- **Every step keeps its word** about what was issued before, and gives access to nothing else. -/
theorem Vouches.perform (hsound : s.Sound log) (hledger : Ledger s.stock log)
    {past : List (Payload × Image)} (h : s.Vouches steady past) {step : Step}
    (hleaves : ∀ r, steady r → s.LeavesAlone kernel step r) :
    (s.perform kernel step).session.Vouches steady (past ++ s.issuedBy kernel step) ∧
      ∀ q ∈ (s.perform kernel step).answer.payloads,
        ∃ p image, (p, image) ∈ past ++ s.issuedBy kernel step ∧ Payload.Continues steady p q := by
  have hfollows := perform_follows hsound step hleaves
  have hafter := hledger.turns hfollows.turns
  -- what a step knows of was issued in it or before
  have hknown : ∀ p, s.Knows (s.perform kernel step).answer p →
      ∃ first image, (first, image) ∈ past ++ s.issuedBy kernel step ∧
        Payload.Continues steady first p := by
    rintro p (hmade | hroutine)
    · obtain ⟨⟨image, hloads, -⟩, -⟩ := hfollows.made p hmade
      exact ⟨p, image, List.mem_append_right _ (mem_issuedBy_iff.mpr ⟨hmade, hloads⟩),
        .refl steady p⟩
    · obtain ⟨routine, hmem, rfl⟩ := List.mem_map.mp hroutine
      obtain ⟨first, image, hissued, hcontinues⟩ := h.routines routine hmem
      exact ⟨first, image, List.mem_append_left _ hissued, hcontinues⟩
  have hcontinued : ∀ q, (∃ p, s.Knows (s.perform kernel step).answer p ∧
      Payload.Continues steady p q) →
      ∃ first image, (first, image) ∈ past ++ s.issuedBy kernel step ∧
        Payload.Continues steady first q := by
    rintro q ⟨p, hp, hq⟩
    obtain ⟨first, image, hissued, hcontinues⟩ := hknown p hp
    exact ⟨first, image, hissued, hcontinues.trans hq⟩
  refine ⟨⟨?_, ?_, ?_⟩, ?_⟩
  · intro p image hmem
    rcases List.mem_append.mp hmem with hmem | hmem
    · exact h.holds p image hmem
    · obtain ⟨hp, hloads⟩ := mem_issuedBy_iff.mp hmem
      obtain ⟨⟨image', hloads', hholds⟩, -⟩ := hfollows.made p hp
      obtain rfl := Option.some.inj (hloads.symm.trans hloads')
      exact hholds
  · intro p image hmem
    rcases List.mem_append.mp hmem with hmem | hmem
    · have hkept := h.kept p image hmem
      obtain ⟨o, -, rfl⟩ := h.holds p image hmem
      exact hkept.turns hfollows.turns
    · obtain ⟨hp, -⟩ := mem_issuedBy_iff.mp hmem
      obtain ⟨-, q, hcontinues, hq⟩ := hfollows.made p hp
      exact hafter.keeps hq hcontinues
  · intro routine hmem
    exact hcontinued _ (hfollows.routines routine hmem)
  · intro q hq
    exact hcontinued q (hfollows.payloads q hq)

theorem Vouches.run (hsound : s.Sound log) (hledger : Ledger s.stock log)
    {past : List (Payload × Image)} (h : s.Vouches steady past) {steps : List Step}
    (hleaves : Throughout (fun s step => ∀ r, steady r → s.LeavesAlone kernel step r) kernel s
      steps) :
    (s.run kernel steps).2.Vouches steady (past ++ issued kernel s steps) ∧
      ∀ reply ∈ (s.run kernel steps).1, ∀ q ∈ reply.1.payloads,
        ∃ p image, (p, image) ∈ past ++ issued kernel s steps ∧ Payload.Continues steady p q := by
  induction steps generalizing s log past with
  | nil =>
    refine ⟨?_, List.forall_mem_nil _⟩
    show s.Vouches steady (past ++ [])
    rw [List.append_nil]
    exact h
  | cons step steps ih =>
    obtain ⟨hfirst, hrest⟩ := hleaves.cons
    have hfollows := perform_follows hsound step hfirst
    obtain ⟨hvouches, hpayloads⟩ := h.perform hsound hledger hfirst
    obtain ⟨hlast, hothers⟩ := ih hfollows.sound (hledger.turns hfollows.turns) hvouches hrest
    rw [List.append_assoc] at hlast hothers
    refine ⟨hlast, ?_⟩
    intro reply hreply q hq
    rcases List.mem_cons.mp hreply with rfl | hreply
    · obtain ⟨p, image, hissued, hcontinues⟩ := hpayloads q hq
      refine ⟨p, image, ?_, hcontinues⟩
      show (p, image) ∈ past ++ (s.issuedBy kernel step ++ _)
      rw [← List.append_assoc]
      exact List.mem_append_left _ hissued
    · exact hothers reply hreply q hq

/-! ## What payloads prove -/

end Session

end Emplace
