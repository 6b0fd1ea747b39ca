import Mathlib.Data.List.Pairwise
import Emplace.Proofs.Image.Pending

/-
  The order of requests.

  Requests may name any sites, recorded or made up.  What one of them is answered depends on the
  size of the image alone, and no request changes the size.  So each request is answered in a run as
  it would be answered at its start, wherever in the run it stands (`answers_eq`).

  What a run leaves does depend on the order, but only through bytes that two requests write:

    * byte by byte, a request that is granted leaves what it writes, and every other byte as it was
      (`getElem?_attempt`);
    * so two requests whose fields lie apart may change places (`attempt_comm`), and of two that
      write the same field the last one counts (`bytes_attempt_of_covers`);
    * requests whose fields lie apart from one another may be put in any order
      (`attemptAll_perm`).

  A short field inside a long one is where this ends, as the example after `requests_in_any_order`
  shows.
-/

namespace Emplace

/-! ## Fields apart from each other -/

/-- No byte belongs to the fields of both sites. -/
def Site.Apart (s s' : Site) : Prop :=
  s.field + s.width.bytes ≤ s'.field ∨ s'.field + s'.width.bytes ≤ s.field

instance (s s' : Site) : Decidable (s.Apart s') := by unfold Site.Apart; infer_instance

namespace Site.Apart

theorem symm {s s' : Site} (h : s.Apart s') : s'.Apart s := Or.symm h

theorem not_covers {s s' : Site} (h : s.Apart s') {i : Nat} (hi : s.Covers i) : ¬ s'.Covers i := by
  obtain ⟨lo, hi⟩ := hi
  rw [not_covers_iff]
  rcases h with hbefore | hbehind
  · exact .inl (by omega)
  · exact .inr (by omega)

end Site.Apart

/-- The displacement of a request, as it is written into its field. -/
def Request.encoded (r : Request) : List UInt8 :=
  LittleEndian.encodeInt r.site.width.bytes (r.site.displacement r.target)

theorem Request.length_encoded (r : Request) : r.encoded.length = r.site.width.bytes :=
  LittleEndian.length_encodeInt _ _

namespace Image

/-! ## Answers -/

/-- The displacement that a request is answered with, or the refusal. -/
def answer (image : Image) (r : Request) : Except Error Int :=
  (image.resolve r.site r.target).map Prod.fst

/-- The answers to requests that are made one after the other, each with its request. -/
def answers : Image → List Request → List (Request × Except Error Int)
  | _, [] => []
  | image, r :: requests => (r, image.answer r) :: answers (image.attempt r) requests

theorem grants_eq_isOk_answer (image : Image) (r : Request) :
    image.grants r = (image.answer r).isOk := by
  unfold grants answer
  cases image.resolve r.site r.target <;> rfl

/-- Of the image, only the size has a part in the answer. -/
theorem answer_congr {image image' : Image} (h : image'.size = image.size) (r : Request) :
    image'.answer r = image.answer r := by
  have hadmits : image'.admits r.site r.target = image.admits r.site r.target := by
    unfold admits
    rw [h]
  unfold answer resolve
  rw [hadmits, h]
  split
  · cases r.site.distance r.target with
    | error cause => rfl
    | ok d =>
      cases hencode : r.site.width.encode d with
      | error cause => simp only [bind, Except.bind, hencode]
      | ok bytes =>
        simp only [bind, Except.bind, hencode]
        rfl
  · rfl

/-! ## One request -/

/-- A request that is granted satisfies the bounds. -/
theorem admits_of_grants {image : Image} {r : Request} (h : image.grants r = true) :
    image.Admits r.site r.target := by
  apply admits_sound
  unfold grants resolve at h
  split at h
  · assumption
  · cases h

/-- There is room for the field of a request that is granted. -/
theorem field_le_of_grants {image : Image} {r : Request} (h : image.grants r = true) :
    r.site.field + r.encoded.length ≤ image.bytes.length := by
  obtain ⟨hfield, -, hstop, -⟩ := admits_of_grants h
  rw [r.length_encoded]
  exact Nat.le_trans hfield hstop

theorem size_attempt (image : Image) (r : Request) : (image.attempt r).size = image.size := by
  rcases attempt_cases image r with ⟨hg, -, hattempt⟩ | ⟨-, hattempt⟩
  · rw [hattempt]
    exact length_overwrite (field_le_of_grants hg)
  · rw [hattempt]

theorem data_attempt (image : Image) (r : Request) : (image.attempt r).data = image.data := by
  rcases attempt_cases image r with ⟨-, -, hattempt⟩ | ⟨-, hattempt⟩
  · rw [hattempt]
    rfl
  · rw [hattempt]

theorem answer_attempt (image : Image) (q r : Request) :
    (image.attempt q).answer r = image.answer r :=
  answer_congr (size_attempt image q) r

theorem grants_attempt (image : Image) (q r : Request) :
    (image.attempt q).grants r = image.grants r := by
  rw [grants_eq_isOk_answer, grants_eq_isOk_answer, answer_attempt]

/-! ## One request, byte by byte -/

/-- The byte that a request writes at an offset, if it is granted and writes there. -/
def byte? (image : Image) (r : Request) (i : Nat) : Option UInt8 :=
  if image.grants r = true ∧ r.site.Covers i then r.encoded[i - r.site.field]? else none

theorem byte?_attempt (image : Image) (q r : Request) (i : Nat) :
    (image.attempt q).byte? r i = image.byte? r i := by
  unfold byte?
  rw [grants_attempt]

theorem isSome_byte?_iff {image : Image} {r : Request} {i : Nat} :
    (image.byte? r i).isSome = true ↔ image.grants r = true ∧ r.site.Covers i := by
  unfold byte?
  split
  · rename_i h
    have hj : i - r.site.field < r.encoded.length := by
      rw [r.length_encoded]
      exact h.2.sub_lt
    rw [List.getElem?_eq_getElem hj]
    exact ⟨fun _ => h, fun _ => rfl⟩
  · rename_i h
    exact ⟨fun hsome => (nomatch hsome), fun hboth => absurd hboth h⟩

theorem byte?_eq_none_of_not_covers {image : Image} {r : Request} {i : Nat}
    (h : ¬ r.site.Covers i) : image.byte? r i = none := by
  rw [← Option.not_isSome_iff_eq_none, isSome_byte?_iff]
  exact fun hboth => h hboth.2

/-- **What a request does to each byte.** -/
theorem getElem?_attempt (image : Image) (r : Request) (i : Nat) :
    (image.attempt r).bytes[i]? = (image.byte? r i).or image.bytes[i]? := by
  rcases attempt_cases image r with ⟨hg, -, hattempt⟩ | ⟨hg, hattempt⟩
  · have hroom := field_le_of_grants hg
    have hbytes : (image.attempt r).bytes = overwrite image.bytes r.site.field r.encoded := by
      rw [hattempt]
      rfl
    rw [hbytes]
    by_cases hi : r.site.Covers i
    · have hsome : (image.byte? r i).isSome = true := isSome_byte?_iff.mpr ⟨hg, hi⟩
      rw [Option.or_of_isSome hsome, byte?, if_pos ⟨hg, hi⟩]
      exact Site.getElem?_of_covers (contents_overwrite r.length_encoded hroom) hi
    · rw [byte?_eq_none_of_not_covers hi, Option.none_or]
      exact getElem?_overwrite_of_not_covers r.length_encoded hroom hi
  · rw [hattempt, byte?, hg]
    simp

/-! ## Two requests -/

/-- **Requests whose fields lie apart may change places.** -/
theorem attempt_comm {q r : Request} (h : q.site.Apart r.site) (image : Image) :
    (image.attempt q).attempt r = (image.attempt r).attempt q := by
  have hbytes : ((image.attempt q).attempt r).bytes = ((image.attempt r).attempt q).bytes := by
    apply List.ext_getElem?
    intro i
    simp only [getElem?_attempt, byte?_attempt]
    by_cases hi : q.site.Covers i
    · rw [byte?_eq_none_of_not_covers (h.not_covers hi), Option.none_or, Option.none_or]
    · rw [byte?_eq_none_of_not_covers hi, Option.none_or, Option.none_or]
  have hpending :
      ((image.attempt q).attempt r).pending = ((image.attempt r).attempt q).pending := by
    simp only [pending_attempt, grants_attempt, List.filter_filter]
    exact List.filter_congr fun s _ => Bool.and_comm _ _
  have hdata : ((image.attempt q).attempt r).data = ((image.attempt r).attempt q).data := by
    simp only [data_attempt]
  exact eq_of_parts hbytes hdata hpending

/-- Where the last request is granted and writes whatever the one before it writes, the one before
    it leaves no byte. -/
theorem bytes_attempt_of_covers {q r : Request} {image : Image} (hr : image.grants r = true)
    (h : ∀ i, q.site.Covers i → r.site.Covers i) :
    ((image.attempt q).attempt r).bytes = (image.attempt r).bytes := by
  apply List.ext_getElem?
  intro i
  simp only [getElem?_attempt, byte?_attempt]
  by_cases hi : r.site.Covers i
  · have hsome : (image.byte? r i).isSome = true := isSome_byte?_iff.mpr ⟨hr, hi⟩
    rw [Option.or_of_isSome hsome, Option.or_of_isSome hsome]
  · rw [byte?_eq_none_of_not_covers (r := q) fun hq => hi (h i hq), Option.none_or]

/-- A request that is made once more changes nothing. -/
theorem attempt_attempt (image : Image) (r : Request) :
    (image.attempt r).attempt r = image.attempt r := by
  rcases attempt_cases image r with ⟨hg, -, -⟩ | ⟨-, hattempt⟩
  · have hbytes := bytes_attempt_of_covers (q := r) hg fun _ hi => hi
    have hpending : ((image.attempt r).attempt r).pending = (image.attempt r).pending := by
      simp only [pending_attempt, grants_attempt, List.filter_filter, Bool.and_self]
    exact eq_of_parts hbytes (data_attempt _ r) hpending
  · rw [hattempt, hattempt]

/-! ## Runs -/

theorem size_attemptAll (image : Image) (requests : List Request) :
    (image.attemptAll requests).size = image.size := by
  induction requests generalizing image with
  | nil => rfl
  | cons r requests ih => exact (ih (image.attempt r)).trans (size_attempt image r)

theorem grants_attemptAll (image : Image) (requests : List Request) (r : Request) :
    (image.attemptAll requests).grants r = image.grants r := by
  rw [grants_eq_isOk_answer, grants_eq_isOk_answer, answer_congr (size_attemptAll image requests)]

/-- **Every request of a run is answered as at its start.** -/
theorem answers_eq (image : Image) (requests : List Request) :
    image.answers requests = requests.map fun r => (r, image.answer r) := by
  induction requests generalizing image with
  | nil => rfl
  | cons r requests ih =>
    rw [answers, ih, List.map_cons]
    simp only [answer_attempt]

/-- **Requests whose fields lie apart from one another may be made in any order.** -/
theorem attemptAll_perm {requests requests' : List Request} (hperm : requests.Perm requests')
    (hapart : requests.Pairwise fun q r => q.site.Apart r.site) (image : Image) :
    image.attemptAll requests' = image.attemptAll requests := by
  have hsymm : Std.Symm fun q r : Request => q.site.Apart r.site := ⟨fun _ _ h => h.symm⟩
  refine (hperm.foldl_eq' (fun q hq r hr before => ?_) image).symm
  by_cases hqr : q = r
  · rw [hqr]
  · exact attempt_comm (hapart.forall hq hr hqr) before

/-- **The order of requests** for any sites and any targets.  Which of two requests comes first
    makes no difference to what either is answered.  It makes none to the image either when their
    fields lie apart; when they write the same field, and the second is granted, the bytes are those
    that the second leaves on its own.  A request that is made again is answered the same and changes
    nothing.  So a list of requests whose fields lie apart from one another may be put in any order:
    the image is the same at the end, and every request is answered as before. -/
theorem requests_in_any_order (image : Image) (q r : Request) :
    ((image.attempt q).answer r = image.answer r ∧ (image.attempt r).answer q = image.answer q) ∧
    (q.site.Apart r.site → (image.attempt q).attempt r = (image.attempt r).attempt q) ∧
    (q.site.field = r.site.field → q.site.width = r.site.width →
      (image.attempt q).grants r = true →
        ((image.attempt q).attempt r).bytes = (image.attempt r).bytes) ∧
    ((image.attempt r).attempt r = image.attempt r ∧
      (image.attempt r).answer r = image.answer r) ∧
    ∀ requests requests' : List Request, requests.Perm requests' →
      requests.Pairwise (fun q r => q.site.Apart r.site) →
        image.attemptAll requests' = image.attemptAll requests ∧
        image.answers requests = requests.map (fun r => (r, image.answer r)) ∧
        image.answers requests' = requests'.map fun r => (r, image.answer r) := by
  refine ⟨⟨answer_attempt image q r, answer_attempt image r q⟩, fun h => attempt_comm h image, ?_,
    ⟨attempt_attempt image r, answer_attempt image r r⟩, ?_⟩
  · intro hfield hwidth hgrants
    rw [grants_attempt] at hgrants
    apply bytes_attempt_of_covers hgrants
    rintro i ⟨lo, hi⟩
    rw [hfield] at lo
    rw [hfield, hwidth] at hi
    exact ⟨lo, hi⟩
  · intro requests requests' hperm hapart
    exact ⟨attemptAll_perm hperm hapart image, answers_eq image requests, answers_eq image requests'⟩

/-- The order counts where a field of one byte lies in one of four. -/
example :
    let image : Image := ⟨[0xE9, 0, 0, 0, 0, 0xC3], none, []⟩
    let long : Request := ⟨.trailing 0 5 .rel32, 5⟩
    let short : Request := ⟨⟨0, 2, 1, .rel8⟩, 0⟩
    image.grants long = true ∧ image.grants short = true ∧
      ((image.attempt long).attempt short).bytes = [0xE9, 0xFE, 0, 0, 0, 0xC3] ∧
      ((image.attempt short).attempt long).bytes = [0xE9, 0, 0, 0, 0, 0xC3] := by
  decide

end Image

end Emplace
