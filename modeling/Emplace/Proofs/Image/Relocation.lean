import Emplace.Image.Resolve
import Emplace.Proofs.Draft.Layout

/-
  Runs of resolutions of the recorded sites.

  A run carries out requests one after the other; a request that is refused changes nothing.  What
  a run leaves depends on little of its history: for each recorded site on the target of the last
  request that succeeded (`settled?`), and on nothing else.

  1. **The relation.**  `Relocated built target? image` says what an image looks like when it was
     built as `built` and each recorded site `s` was last resolved to `target? s`, if at all: its
     field holds the displacement, it is pending no longer, and all bytes outside the fields of such
     sites are as built.

  2. **One step.**  A successful request overwrites one field.  As the fields of two recorded sites
     have no byte in common (`LaidOut.eq_of_covers`), the other fields keep what they held.

  3. **The run.**  `Relocated.attemptAll` follows by induction on the requests, and
     `Relocated.unique` says that the relation leaves no choice.
-/

namespace Emplace

/-- A site, and the target that its displacement is to lead to. -/
structure Request where
  site : Site
  target : Nat
  deriving DecidableEq

namespace Site

/-- The exact distance from the end of the instruction to a target. -/
def displacement (s : Site) (target : Nat) : Int := target - (s.start + s.length : Nat)

/-- The target lies in the first `size` bytes or at their end, and the field can hold the way to
    it. -/
def Reaches (s : Site) (size target : Nat) : Prop :=
  target ≤ size ∧ s.width.Holds (s.displacement target)

end Site

namespace Image

/-- Whether the image accepts the request. -/
def grants (image : Image) (r : Request) : Bool := (image.resolve r.site r.target).isOk

/-- The image after a request.  One that is refused leaves it as it is. -/
def attempt (image : Image) (r : Request) : Image :=
  match image.resolve r.site r.target with
  | .ok (_, image') => image'
  | .error _ => image

/-- The image after some requests. -/
def attemptAll (image : Image) (requests : List Request) : Image := requests.foldl attempt image

/-- The target of the last request for the site that is granted in the run from an image. -/
def settled? (s : Site) : Image → List Request → Option Nat
  | _, [] => none
  | image, r :: requests =>
      (settled? s (image.attempt r) requests).or
        (if r.site = s ∧ image.grants r then some r.target else none)

theorem eq_of_parts {image image' : Image} (hbytes : image.bytes = image'.bytes)
    (hdata : image.data = image'.data) (hpending : image.pending = image'.pending) :
    image = image' := by
  cases image
  cases image'
  rw [Image.mk.injEq]
  exact ⟨hbytes, hdata, hpending⟩

/-! ## Overwriting, byte by byte -/

theorem getElem?_overwrite_of_lt {bytes new : List UInt8} {offset i : Nat}
    (h : offset + new.length ≤ bytes.length) (hi : i < offset) :
    (overwrite bytes offset new)[i]? = bytes[i]? := by
  have hlen : (bytes.take offset).length = offset := List.length_take_of_le (by omega)
  rw [overwrite, List.append_assoc, List.getElem?_append_left (by omega), List.getElem?_take,
    if_pos hi]

theorem getElem?_overwrite_of_le {bytes new : List UInt8} {offset i : Nat}
    (h : offset + new.length ≤ bytes.length) (hi : offset + new.length ≤ i) :
    (overwrite bytes offset new)[i]? = bytes[i]? := by
  have hlen : (bytes.take offset ++ new).length = offset + new.length := by
    rw [List.length_append, List.length_take_of_le (by omega)]
  have hsum : offset + new.length + (i - (offset + new.length)) = i := by omega
  rw [overwrite, List.getElem?_append_right (by omega), hlen, List.getElem?_drop, hsum]

/-- Overwriting a field changes no byte beside it. -/
theorem getElem?_overwrite_of_not_covers {s : Site} {bytes new : List UInt8}
    (hnew : new.length = s.width.bytes) (h : s.field + new.length ≤ bytes.length) {i : Nat}
    (hi : ¬ s.Covers i) : (overwrite bytes s.field new)[i]? = bytes[i]? := by
  rcases Site.not_covers_iff.mp hi with hbefore | hbehind
  · exact getElem?_overwrite_of_lt h hbefore
  · exact getElem?_overwrite_of_le h (hnew ▸ hbehind)

/-- A field that is overwritten holds what was written. -/
theorem contents_overwrite {s : Site} {bytes new : List UInt8}
    (hnew : new.length = s.width.bytes) (h : s.field + new.length ≤ bytes.length) :
    s.contents (overwrite bytes s.field new) = new := by
  have hlen : (bytes.take s.field).length = s.field := List.length_take_of_le (by omega)
  rw [Site.contents, overwrite, List.append_assoc, List.drop_left' hlen, ← hnew,
    List.take_left' rfl]

/-! ## One request -/

/-- A request that is granted writes the exact displacement into its field; one that is refused
    changes nothing. -/
theorem attempt_cases (image : Image) (r : Request) :
    (image.grants r = true ∧ r.site.Reaches image.size r.target ∧
      image.attempt r = image.patch r.site
        (LittleEndian.encodeInt r.site.width.bytes (r.site.displacement r.target))) ∨
    (image.grants r = false ∧ image.attempt r = image) := by
  cases h : image.resolve r.site r.target with
  | error e => exact .inr ⟨by simp [grants, h, Except.isOk, Except.toBool], by simp [attempt, h]⟩
  | ok answer =>
    obtain ⟨d, image'⟩ := answer
    obtain ⟨hadmits, hd, hholds, rfl⟩ := resolve_eq_ok_iff.mp h
    obtain ⟨-, -, rfl⟩ := Site.distance_eq_ok_iff.mp hd
    obtain ⟨-, -, -, htarget⟩ := admits_sound hadmits
    refine .inl ⟨by simp [grants, h, Except.isOk, Except.toBool], ⟨htarget, hholds⟩, ?_⟩
    simp only [attempt, h]
    rfl

/-- Whether a request for a site in the image is granted depends on the size of the image only. -/
theorem grants_iff {image : Image} {r : Request} (hsize : image.size < Offset.signedLimit)
    (hfits : r.site.Fits image.size) :
    image.grants r = true ↔ r.site.Reaches image.size r.target := by
  have hlimit : image.size < Offset.limit := Offset.lt_limit_of_lt_signedLimit hsize
  constructor
  · intro hg
    rcases attempt_cases image r with ⟨-, hreaches, -⟩ | ⟨hrefused, -⟩
    · exact hreaches
    · rw [hg] at hrefused
      cases hrefused
  · rintro ⟨htarget, hholds⟩
    have hadmits : image.Admits r.site r.target :=
      ⟨Nat.le_of_eq hfits.field_add, hfits.start_le, hfits.stop_le, htarget⟩
    have hstop := hfits.stop_le
    have hresolve := resolve_eq_ok_iff.mpr ⟨(admits_iff hlimit).mpr hadmits,
      Site.distance_eq_ok_iff.mpr ⟨by omega, by omega, rfl⟩, hholds, rfl⟩
    simp [grants, hresolve, Except.isOk, Except.toBool]

/-! ## Images built alike and relocated differently -/

/-- `image` was built as `built`, and since then each recorded site was resolved to the target
    given for it, the last time that it was resolved at all. -/
structure Relocated (built : Image) (target? : Site → Option Nat) (image : Image) : Prop where
  size : image.size = built.size
  data : image.data = built.data
  pending : image.pending = built.pending.filter fun s => (target? s).isNone
  reaches : ∀ s ∈ built.pending, ∀ target, target? s = some target → s.Reaches built.size target
  field : ∀ s ∈ built.pending, ∀ target, target? s = some target →
    s.contents image.bytes = LittleEndian.encodeInt s.width.bytes (s.displacement target)
  frame : ∀ i, (∀ s ∈ built.pending, (target? s).isSome = true → ¬ s.Covers i) →
    image.bytes[i]? = built.bytes[i]?

namespace Relocated

variable {built image : Image} {target? : Site → Option Nat}

/-- An image is what it was built as as long as no site was resolved. -/
theorem refl (built : Image) : Relocated built (fun _ => none) built :=
  ⟨rfl, rfl, (List.filter_eq_self.mpr fun _ _ => rfl).symm, fun _ _ _ h => (nomatch h),
    fun _ _ _ h => (nomatch h), fun _ _ => rfl⟩

/-- A recorded site that was not resolved still holds the zeros it was written with. -/
theorem zeroed (h : Relocated built target? image) (hb : built.LaidOut) {s : Site}
    (hs : s ∈ built.pending) (hnone : target? s = none) :
    s.contents image.bytes = List.replicate s.width.bytes 0 := by
  rw [← hb.zeroed s hs]
  apply Site.contents_congr
  intro i hi
  apply h.frame i
  intro s' hs' hsome hi'
  rw [hb.eq_of_covers hs' hs hi' hi, hnone] at hsome
  cases hsome

/-- Resolving overwrites no data. -/
theorem dataBytes (h : Relocated built target? image) (hb : built.LaidOut) :
    image.dataBytes = built.dataBytes := by
  unfold Image.dataBytes
  rw [h.data]
  cases hd : built.data with
  | none => rfl
  | some span =>
    apply List.ext_getElem?
    intro j
    simp only [List.getElem?_take, List.getElem?_drop]
    split
    · exact h.frame _ fun s hs _ => hb.not_covers_data hd hs (by omega) (by omega)
    · rfl

/-- A granted request adds one target to those that are known. -/
theorem attempt (h : Relocated built target? image) (hb : built.LaidOut) {r : Request}
    (hr : r.site ∈ built.pending) :
    Relocated built
      (fun s => (if r.site = s ∧ image.grants r then some r.target else none).or (target? s))
      (image.attempt r) := by
  rcases attempt_cases image r with ⟨hg, hreaches, hattempt⟩ | ⟨hg, hattempt⟩
  · have hfits := hb.fits r.site hr
    have hroom : r.site.field + r.site.width.bytes ≤ image.bytes.length := by
      have h₁ := hfits.field_add
      have h₂ := hfits.stop_le
      have h₃ : image.bytes.length = built.size := h.size
      omega
    -- the bytes that a patch with `r` leaves where they are
    have hframe : ∀ i, ¬ r.site.Covers i → (image.attempt r).bytes[i]? = image.bytes[i]? := by
      intro i hi
      rw [hattempt]
      exact getElem?_overwrite_of_not_covers (by simp) (by simpa using hroom) hi
    constructor
    · rw [hattempt, ← h.size]
      exact length_overwrite (by simpa using hroom)
    · rw [hattempt]
      exact h.data
    · have hpending : (image.attempt r).pending = image.pending.filter (· ≠ r.site) := by
        rw [hattempt]
        rfl
      rw [hpending, h.pending, List.filter_filter]
      apply List.filter_congr
      intro s hs
      by_cases hsr : r.site = s
      · simp [hsr, hg]
      · simp [hsr, Ne.symm hsr]
    · intro s hs target htarget
      by_cases hsr : r.site = s
      · subst hsr
        simp only [hg, and_self, if_true, Option.some_or, Option.some.injEq] at htarget
        rw [← htarget, ← h.size]
        exact hreaches
      · simp only [hsr, false_and, if_false, Option.none_or] at htarget
        exact h.reaches s hs target htarget
    · intro s hs target htarget
      by_cases hsr : r.site = s
      · subst hsr
        simp only [hg, and_self, if_true, Option.some_or, Option.some.injEq] at htarget
        subst htarget
        rw [hattempt]
        exact contents_overwrite (by simp) (by simpa using hroom)
      · simp only [hsr, false_and, if_false, Option.none_or] at htarget
        rw [← h.field s hs target htarget]
        apply Site.contents_congr
        intro i hi
        exact hframe i fun hi' => hsr (hb.eq_of_covers hr hs hi' hi)
    · intro i hi
      rw [hframe i (hi r.site hr (by simp [hg]))]
      apply h.frame i
      intro s hs hsome
      apply hi s hs
      rw [Option.isSome_or, hsome, Bool.or_true]
  · rw [hattempt]
    simpa [hg] using h

/-- The targets known before a run count only where it settles nothing. -/
theorem attemptAll (h : Relocated built target? image) (hb : built.LaidOut)
    {requests : List Request} (hrequests : ∀ r ∈ requests, r.site ∈ built.pending) :
    Relocated built (fun s => (settled? s image requests).or (target? s))
      (image.attemptAll requests) := by
  induction requests generalizing image target? with
  | nil => exact h
  | cons r requests ih =>
    have hr : r.site ∈ built.pending := hrequests r (List.mem_cons_self ..)
    have hrest : ∀ r' ∈ requests, r'.site ∈ built.pending :=
      fun r' hr' => hrequests r' (List.mem_cons_of_mem r hr')
    have hrun := ih (h.attempt hb hr) hrest
    simp only [settled?, Option.or_assoc]
    exact hrun

/-- The same from the start. -/
theorem attemptAll_refl (hb : built.LaidOut) {requests : List Request}
    (hrequests : ∀ r ∈ requests, r.site ∈ built.pending) :
    Relocated built (fun s => settled? s built requests) (built.attemptAll requests) := by
  have hrun := (refl built).attemptAll hb hrequests
  simp only [Option.or_none] at hrun
  exact hrun

/-- The targets of the recorded sites determine the image. -/
theorem unique {image' : Image} {target?' : Site → Option Nat} (h : Relocated built target? image)
    (h' : Relocated built target?' image') (hagree : ∀ s ∈ built.pending, target?' s = target? s) :
    image' = image := by
  have hbytes : image'.bytes = image.bytes := by
    apply List.ext_getElem?
    intro i
    by_cases hi : ∀ s ∈ built.pending, (target? s).isSome = true → ¬ s.Covers i
    · rw [h.frame i hi]
      exact h'.frame i fun s hs hsome => hi s hs (hagree s hs ▸ hsome)
    · simp only [Classical.not_forall, Classical.not_not] at hi
      obtain ⟨s, hs, hsome, hcovers⟩ := hi
      obtain ⟨target, htarget⟩ := Option.isSome_iff_exists.mp hsome
      refine Site.getElem?_of_contents ?_ hcovers
      rw [h.field s hs target htarget, h'.field s hs target ((hagree s hs).trans htarget)]
  have hpending : image'.pending = image.pending := by
    rw [h.pending, h'.pending]
    apply List.filter_congr
    intro s hs
    rw [hagree s hs]
  exact eq_of_parts hbytes (h'.data.trans h.data.symm) hpending

end Relocated

/-! ## The whole run -/

/-- **A run leaves in each field the way to the last target that was granted.**  Whatever is
    written and whichever recorded sites are asked for, in any order and as often as one likes, the
    image is the one built but for those fields; the other recorded sites hold zeros and are the
    ones that still wait.  Hence runs that agree on the last targets end in the same image.  A
    request at the end of any run is granted exactly when the site reaches its target. -/
theorem relocated_attemptAll (edits : List Edit) (requests : List Request)
    (hsize : (Draft.ofEdits edits).size < Offset.signedLimit)
    (hrequests : ∀ r ∈ requests, r.site ∈ (Draft.ofEdits edits).finish.pending) :
    let built := (Draft.ofEdits edits).finish
    let last := fun s => settled? s built requests
    let image := built.attemptAll requests
    Relocated built last image ∧
    (∀ s ∈ built.pending, last s = none →
      s.contents image.bytes = List.replicate s.width.bytes 0) ∧
    image.dataBytes = built.dataBytes ∧
    (∀ r, r.site ∈ built.pending →
      (image.grants r = true ↔ r.site.Reaches built.size r.target)) ∧
    ∀ requests', (∀ r ∈ requests', r.site ∈ built.pending) →
      (∀ s ∈ built.pending, settled? s built requests' = last s) →
      built.attemptAll requests' = image := by
  intro built last image
  have hlimit : (Draft.ofEdits edits).size < Offset.limit :=
    Offset.lt_limit_of_lt_signedLimit hsize
  have hb : built.LaidOut := Draft.laidOut_ofEdits hlimit
  have hrun := Relocated.attemptAll_refl hb hrequests
  refine ⟨hrun, fun s hs hnone => hrun.zeroed hb hs hnone, hrun.dataBytes hb, ?_, ?_⟩
  · intro r hr
    have hfits : r.site.Fits image.size := by
      rw [hrun.size]
      exact hb.fits r.site hr
    rw [grants_iff (by rw [hrun.size]; exact hsize) hfits, hrun.size]
  · intro requests' hrequests' hagree
    exact hrun.unique (Relocated.attemptAll_refl hb hrequests') hagree

/-- A jump whose second request is refused, and a reference that is resolved twice. -/
theorem relocated_attemptAll_jmp_lea :
    let edits : List Edit :=
      [.instruction .jmpShort, .instruction (.lea .rsi), .instruction .ret, .data [7]]
    let jmp := Site.trailing 0 2 .rel8
    let lea := Site.trailing 2 7 .rel32
    let requests : List Request := [⟨jmp, 9⟩, ⟨lea, 0⟩, ⟨jmp, 12⟩, ⟨lea, 10⟩]
    let built := (Draft.ofEdits edits).finish
    (Draft.ofEdits edits).size < Offset.signedLimit ∧ (∀ r ∈ requests, r.site ∈ built.pending) ∧
    Relocated built (fun s => settled? s built requests) (built.attemptAll requests) ∧
    settled? jmp built requests = some 9 ∧ settled? lea built requests = some 10 := by
  intro edits jmp lea requests built
  have hsize : (Draft.ofEdits edits).size < Offset.signedLimit := by decide
  have hrequests : ∀ r ∈ requests, r.site ∈ built.pending := by decide
  exact ⟨hsize, hrequests, (relocated_attemptAll edits requests hsize hrequests).1, by decide,
    by decide⟩

end Image

end Emplace
