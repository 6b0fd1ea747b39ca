import Emplace.Region.Load
import Emplace.Proofs.Image.Relocation

/-
  What an image waits for, and what it cannot be loaded without.

  An image is pending on the sites that were recorded while it was written, less those that were
  resolved since.  Requests may name any site: a recorded one, one of another draft, or one made up
  that lies across a recorded one.  What counts is equality: a request settles the site that it
  names, field for field, and no other one.

  1. **Recorded sites.**  `Draft.recorded` are the sites that edits yield.  They are what a finished
     image is pending on (`pending_run_eq`), and no two of them are equal (`nodup_recorded`).

  2. **The history.**  `Settles image requests s` says that some request of the run asked for `s` and
     was granted when its turn came.  After the run just the sites that it did not settle are
     pending, in their old order (`pending_attemptAll`).

  3. **The gate.**  Loading looks at the pending sites before anything else, so the first one that
     was never settled is what it answers, whatever the region and the kernel are like
     (`load_unsettled`).
-/

namespace Emplace

/-! ## Recorded sites -/

namespace Draft

/-- The sites that edits of the draft yield, in order. -/
def recorded (d : Draft) : List Edit → List Site
  | [] => []
  | e :: edits =>
      match d.apply e with
      | .ok (.site s, d') => s :: recorded d' edits
      | .ok (_, d') => recorded d' edits
      | .error _ => recorded d edits

/-- An edit yields a site just when it leaves a field open. -/
theorem recorded_cons (d : Draft) (e : Edit) (edits : List Edit) :
    d.recorded (e :: edits) = (d.site? e).toList ++ (d.step e).recorded edits := by
  cases e with
  | append bytes => rfl
  | data bytes =>
    cases hd : d.data <;> simp [recorded, site?, Edit.open?, step, apply, appendData, hd,
      Except.map]
  | instruction emission =>
    cases ho : emission.field? <;>
      simp [recorded, site?, Edit.open?, step, apply, write, ho]
  | _ => rfl

/-- A draft is pending on what it was pending on before and on what was recorded since. -/
theorem pending_run_eq (d : Draft) (edits : List Edit) :
    (d.run edits).pending = d.pending ++ d.recorded edits := by
  induction edits generalizing d with
  | nil => exact (List.append_nil _).symm
  | cons e edits ih => rw [run_cons, ih, pending_step, recorded_cons, List.append_assoc]

/-- What is recorded lies behind the bytes that were there before. -/
theorem size_le_of_mem_recorded {d : Draft} {edits : List Edit} {s : Site}
    (h : s ∈ d.recorded edits) : d.size ≤ s.start := by
  induction edits generalizing d with
  | nil => cases h
  | cons e edits ih =>
    rw [recorded_cons, List.mem_append, Option.mem_toList] at h
    rcases h with h | h
    · obtain ⟨width, -, rfl⟩ := Option.map_eq_some_iff.mp h
      exact Nat.le_refl _
    · exact Nat.le_trans (size_le_step d e) (ih h)

/-- An instruction with a field is not empty. -/
theorem size_lt_step_of_site? {d : Draft} {e : Edit} {s : Site} (h : d.site? e = some s) :
    s.start < (d.step e).size := by
  obtain ⟨width, ho, rfl⟩ := Option.map_eq_some_iff.mp h
  have hpos := width.bytes_pos
  rcases step_cases d e with ⟨hnone, -⟩ | ⟨width', ho', hstep⟩ | ⟨bytes, rfl, -⟩ | ⟨bytes, rfl, -⟩
  · rw [hnone] at ho
    cases ho
  · obtain rfl := Option.some.inj (ho.symm.trans ho')
    rw [hstep]
    show d.bytes.length < (d.bytes ++ (e.leading ++ List.replicate width.bytes 0)).length
    simp only [List.length_append, List.length_replicate]
    omega
  · cases ho
  · cases ho

/-- **A recorded site is recorded once.** -/
theorem nodup_recorded (d : Draft) (edits : List Edit) : (d.recorded edits).Nodup := by
  induction edits generalizing d with
  | nil => exact List.nodup_nil
  | cons e edits ih =>
    rw [recorded_cons]
    cases hs : d.site? e with
    | none => exact ih (d.step e)
    | some s =>
      refine List.nodup_cons.mpr ⟨fun hmem => ?_, ih (d.step e)⟩
      have hlt := size_lt_step_of_site? hs
      have hle := size_le_of_mem_recorded hmem
      omega

end Draft

namespace Image

/-! ## The history of a site -/

/-- Some request of the run asks for the site, in all its fields, and is granted when its turn
    comes. -/
def Settles (image : Image) (requests : List Request) (s : Site) : Prop :=
  ∃ before r after, requests = before ++ r :: after ∧ r.site = s ∧
    (image.attemptAll before).grants r = true

theorem settles_cons_iff {image : Image} {r : Request} {requests : List Request} {s : Site} :
    Settles image (r :: requests) s ↔
      (r.site = s ∧ image.grants r = true) ∨ Settles (image.attempt r) requests s := by
  constructor
  · rintro ⟨before, r', after, hsplit, hsite, hgrants⟩
    cases before with
    | nil =>
      obtain ⟨rfl, rfl⟩ := List.cons.inj hsplit
      exact .inl ⟨hsite, hgrants⟩
    | cons first before =>
      obtain ⟨rfl, hrest⟩ := List.cons.inj hsplit
      exact .inr ⟨before, r', after, hrest, hsite, hgrants⟩
  · rintro (⟨hsite, hgrants⟩ | ⟨before, r', after, rfl, hsite, hgrants⟩)
    · exact ⟨[], r, requests, rfl, hsite, hgrants⟩
    · exact ⟨r :: before, r', after, rfl, hsite, hgrants⟩

/-- A site has a last target just when the run settles it. -/
theorem isSome_settled?_iff {image : Image} {requests : List Request} {s : Site} :
    (settled? s image requests).isSome = true ↔ Settles image requests s := by
  induction requests generalizing image with
  | nil =>
    constructor
    · nofun
    · rintro ⟨before, r, after, hsplit, -⟩
      cases before <;> cases hsplit
  | cons r requests ih =>
    rw [settles_cons_iff, ← ih, settled?, Option.isSome_or, Bool.or_eq_true, or_comm]
    by_cases h : r.site = s ∧ image.grants r = true <;> simp [h]

/-- A request takes its own site off the list, if it is granted, and no other site. -/
theorem pending_attempt (image : Image) (r : Request) :
    (image.attempt r).pending =
      image.pending.filter fun s => ¬ (r.site = s ∧ image.grants r = true) := by
  rcases attempt_cases image r with ⟨hg, -, hattempt⟩ | ⟨hg, hattempt⟩
  · rw [hattempt]
    show image.pending.filter (fun s => s ≠ r.site) = _
    apply List.filter_congr
    intro s _
    simp [hg, eq_comm]
  · rw [hattempt]
    refine (List.filter_eq_self.mpr fun s _ => ?_).symm
    simp [hg]

/-- **What a run does not settle stays pending**, in the order in which it was. -/
theorem pending_attemptAll (image : Image) (requests : List Request) :
    (image.attemptAll requests).pending =
      image.pending.filter fun s => (settled? s image requests).isNone := by
  induction requests generalizing image with
  | nil => exact (List.filter_eq_self.mpr fun _ _ => rfl).symm
  | cons r requests ih =>
    show ((image.attempt r).attemptAll requests).pending = _
    rw [ih, pending_attempt, List.filter_filter]
    apply List.filter_congr
    intro s _
    rw [settled?]
    by_cases h : r.site = s ∧ image.grants r = true <;> simp [h]

theorem mem_pending_attemptAll_iff {image : Image} {requests : List Request} {s : Site} :
    s ∈ (image.attemptAll requests).pending ↔ s ∈ image.pending ∧ ¬ Settles image requests s := by
  rw [pending_attemptAll, List.mem_filter, Option.isNone_iff_eq_none, ← isSome_settled?_iff,
    Option.not_isSome_iff_eq_none]

/-- The first site that is pending after a run: all sites before it were settled, and it was not. -/
theorem pending_attemptAll_of_split {image : Image} {requests : List Request}
    {before after : List Site} {s : Site} (hsplit : image.pending = before ++ s :: after)
    (hbefore : ∀ s' ∈ before, Settles image requests s') (hs : ¬ Settles image requests s) :
    ∃ rest, (image.attemptAll requests).pending = s :: rest := by
  have hnone : before.filter (fun s' => (settled? s' image requests).isNone) = [] := by
    refine List.filter_eq_nil_iff.mpr fun s' hs' => ?_
    have hsome := isSome_settled?_iff.mpr (hbefore s' hs')
    rw [Option.isNone_iff_eq_none]
    exact Option.isSome_iff_ne_none.mp hsome
  have hkeep : (settled? s image requests).isNone = true := by
    rw [Option.isNone_iff_eq_none, ← Option.not_isSome_iff_eq_none, isSome_settled?_iff]
    exact hs
  refine ⟨after.filter fun s' => (settled? s' image requests).isNone, ?_⟩
  rw [pending_attemptAll, hsplit, List.filter_append, hnone, List.filter_cons, if_pos hkeep]
  rfl

/-- Requests for other sites do not settle a site. -/
theorem not_settles_of_ne {image : Image} {requests : List Request} {s : Site}
    (h : ∀ r ∈ requests, r.site ≠ s) : ¬ Settles image requests s := by
  rintro ⟨before, r, after, rfl, hsite, -⟩
  exact h r (List.mem_append_right _ (List.mem_cons_self ..)) hsite

end Image

/-! ## The gate -/

namespace Region

/-- Loading names the first pending site.  Nothing else is looked at, and nothing is done. -/
theorem load_of_pending {image : Image} {s : Site} {rest : List Site}
    (h : image.pending = s :: rest) (kernel : Kernel) (r : Region) :
    r.load kernel image = ⟨.error (.unresolved s.field), r, []⟩ := by
  simp only [load, h]

theorem store_ne_unresolved (kernel : Kernel) (r : Region) (bytes : List UInt8) (field : Nat) :
    (r.store kernel bytes).answer ≠ .error (.unresolved field) := by
  unfold store
  split
  · nofun
  · split
    · nofun
    · split <;> nofun
    · nofun
    · nofun

/-- An image that waits for nothing is not refused for waiting. -/
theorem load_ne_unresolved {image : Image} (h : image.pending = []) (kernel : Kernel) (r : Region)
    (field : Nat) : (r.load kernel image).answer ≠ .error (.unresolved field) := by
  simp only [load, h]
  split
  · nofun
  · cases hstore : (r.store kernel image.bytes).answer with
    | ok u => nofun
    | error e =>
      have hne := r.store_ne_unresolved kernel image.bytes field
      rw [hstore] at hne
      exact fun he => hne (congrArg Except.error (Except.error.inj he))

end Region

namespace Image

/-- **Nothing is loaded before it is relocated.**  Whatever was written and whatever sites requests
    named since, loading into any region is refused for an unresolved site just when a recorded one
    was never settled.  The answer names the first such site, and the region stays as it is.
    Requests for other sites do not free a site, wherever they lie, and no request takes its
    freedom away. -/
theorem load_unsettled (edits : List Edit) (requests : List Request) (kernel : Kernel)
    (r : Region) :
    let recorded := Draft.empty.recorded edits
    let built := (Draft.ofEdits edits).finish
    let image := built.attemptAll requests
    recorded.Nodup ∧
    ((∃ field, (r.load kernel image).answer = .error (.unresolved field)) ↔
      ∃ s ∈ recorded, ¬ Settles built requests s) ∧
    (∀ before s after, recorded = before ++ s :: after →
      (∀ s' ∈ before, Settles built requests s') → ¬ Settles built requests s →
        r.load kernel image = ⟨.error (.unresolved s.field), r, []⟩) ∧
    (∀ s, s ∈ image.pending ↔ s ∈ recorded ∧ ¬ Settles built requests s) ∧
    (∀ s ∈ image.pending, ∀ more, (∀ q ∈ more, q.site ≠ s) →
      s ∈ (image.attemptAll more).pending) ∧
    ∀ s more, s ∈ (image.attemptAll more).pending → s ∈ image.pending := by
  intro recorded built image
  have hbuilt : built.pending = recorded := by
    show (Draft.empty.run edits).pending = _
    rw [Draft.pending_run_eq]
    rfl
  have hmem : ∀ s, s ∈ image.pending ↔ s ∈ recorded ∧ ¬ Settles built requests s := by
    intro s
    rw [mem_pending_attemptAll_iff, hbuilt]
  have hfirst : ∀ before s after, recorded = before ++ s :: after →
      (∀ s' ∈ before, Settles built requests s') → ¬ Settles built requests s →
        r.load kernel image = ⟨.error (.unresolved s.field), r, []⟩ := by
    intro before s after hsplit hbefore hs
    obtain ⟨rest, hpending⟩ := pending_attemptAll_of_split (hbuilt.trans hsplit) hbefore hs
    exact Region.load_of_pending hpending kernel r
  refine ⟨Draft.nodup_recorded _ _, ?_, hfirst, hmem, ?_, ?_⟩
  · cases hpending : image.pending with
    | nil =>
      constructor
      · rintro ⟨field, hload⟩
        exact absurd hload (Region.load_ne_unresolved hpending kernel r field)
      · rintro ⟨s, hs⟩
        have hs := (hmem s).mpr hs
        rw [hpending] at hs
        cases hs
    | cons s rest =>
      constructor
      · intro _
        exact ⟨s, (hmem s).mp (hpending ▸ List.mem_cons_self ..)⟩
      · intro _
        exact ⟨s.field, by rw [Region.load_of_pending hpending]⟩
  · intro s hs more hmore
    exact mem_pending_attemptAll_iff.mpr ⟨hs, not_settles_of_ne hmore⟩
  · intro s more hs
    exact (mem_pending_attemptAll_iff.mp hs).1

/-- A site made up over the field of a recorded one is granted and settles nothing. -/
example :
    let built := (Draft.ofEdits [.instruction .jmpShort, .instruction .ret]).finish
    built.grants ⟨⟨1, 1, 1, .rel8⟩, 2⟩ = true ∧
      (built.attempt ⟨⟨1, 1, 1, .rel8⟩, 2⟩).pending = [.trailing 0 2 .rel8] := by
  decide

end Image

end Emplace
