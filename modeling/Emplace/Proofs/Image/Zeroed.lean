import Emplace.Proofs.Image.Order

/-
  What the fields of pending sites hold.

  A field is written with zeros in it, and its site is pending until a request for this site is
  granted.  It would be good to read the list of pending sites as the list of fields that still hold
  their zeros.  But sites are compared as records, and bytes are written by position: a request for
  a made-up site settles no other site, and yet it writes into every field that it lies across
  (`pending_overwritten`).

  1. **Bytes after a run.**  `lastByte?` is the byte that a run wrote last at an offset; all other
     bytes are as they were (`getElem?_attemptAll`).

  2. **The exact condition.**  The field of a recorded site is zero after a run just when no byte
     that the run wrote last in it is another one (`contents_attemptAll_eq_zeros_iff`).

  3. **When it is met.**  Requests for recorded sites do not write into each other's fields, and no
     more do made-up ones that keep off all of these.  After such requests all that is pending holds
     zeros (`pending_zeroed`).
-/

namespace Emplace

namespace Image

/-! ## Bytes after a run -/

/-- The byte that a run wrote last at an offset, if it wrote there. -/
def lastByte? (image : Image) (i : Nat) : List Request → Option UInt8
  | [] => none
  | r :: requests => (lastByte? image i requests).or (image.byte? r i)

theorem lastByte?_attempt (image : Image) (q : Request) (i : Nat) (requests : List Request) :
    (image.attempt q).lastByte? i requests = image.lastByte? i requests := by
  induction requests with
  | nil => rfl
  | cons r requests ih => rw [lastByte?, lastByte?, ih, byte?_attempt]

/-- **What a run does to each byte.** -/
theorem getElem?_attemptAll (image : Image) (requests : List Request) (i : Nat) :
    (image.attemptAll requests).bytes[i]? =
      (image.lastByte? i requests).or image.bytes[i]? := by
  induction requests generalizing image with
  | nil => rfl
  | cons r requests ih =>
    show ((image.attempt r).attemptAll requests).bytes[i]? = _
    rw [ih, lastByte?_attempt, getElem?_attempt, lastByte?, Option.or_assoc]

/-- Nothing is written at an offset that no field of a granted request covers. -/
theorem lastByte?_eq_none {image : Image} {i : Nat} {requests : List Request}
    (h : ∀ r ∈ requests, image.grants r = true → ¬ r.site.Covers i) :
    image.lastByte? i requests = none := by
  induction requests with
  | nil => rfl
  | cons r requests ih =>
    have hr : image.byte? r i = none := by
      rw [← Option.not_isSome_iff_eq_none, isSome_byte?_iff]
      exact fun hboth => h r (List.mem_cons_self ..) hboth.1 hboth.2
    rw [lastByte?, ih fun r' hr' => h r' (List.mem_cons_of_mem r hr'), hr]
    rfl

/-! ## The field of a recorded site -/

/-- The fields of two recorded sites lie apart. -/
theorem LaidOut.apart_of_ne {image : Image} (h : image.LaidOut) {s s' : Site}
    (hs : s ∈ image.pending) (hs' : s' ∈ image.pending) (hne : s ≠ s') : s.Apart s' := by
  have hfits := h.fits s hs
  have hfits' := h.fits s' hs'
  have hstop := hfits.field_add
  have hstop' := hfits'.field_add
  have hstart := hfits.start_le
  have hstart' := hfits'.start_le
  rcases h.eq_or_apart hs hs' with heq | hbefore | hbehind
  · exact absurd heq hne
  · exact .inl (by omega)
  · exact .inr (by omega)

/-- **Exactly when the field of a recorded site is zero after a run**: every byte that the run wrote
    last in it is. -/
theorem contents_attemptAll_eq_zeros_iff {built : Image} (h : built.LaidOut) {s : Site}
    (hs : s ∈ built.pending) (requests : List Request) :
    s.contents (built.attemptAll requests).bytes = List.replicate s.width.bytes 0 ↔
      ∀ i, s.Covers i → ∀ b, built.lastByte? i requests = some b → b = 0 := by
  have hzeros := h.zeroed s hs
  constructor
  · intro hcontents i hi b hb
    have hbyte := Site.getElem?_of_covers hcontents hi
    rw [getElem?_attemptAll, hb, Option.some_or, List.getElem?_replicate_of_lt hi.sub_lt] at hbyte
    exact Option.some.inj hbyte
  · intro hlast
    rw [← hzeros]
    apply Site.contents_congr
    intro i hi
    have hbuilt := Site.getElem?_of_covers hzeros hi
    rw [List.getElem?_replicate_of_lt hi.sub_lt] at hbuilt
    rw [getElem?_attemptAll, hbuilt]
    cases hb : built.lastByte? i requests with
    | none => rfl
    | some b => rw [hlast i hi b hb, Option.some_or]

/-- A granted request is not for a site that is still pending after the run. -/
theorem ne_of_mem_pending {image : Image} {requests : List Request} {s : Site}
    (hs : s ∈ (image.attemptAll requests).pending) {r : Request} (hr : r ∈ requests)
    (hg : image.grants r = true) : r.site ≠ s := by
  obtain ⟨-, hsettles⟩ := mem_pending_attemptAll_iff.mp hs
  obtain ⟨before, after, rfl⟩ := List.append_of_mem hr
  intro hsite
  exact hsettles ⟨before, r, after, rfl, hsite, by rw [grants_attemptAll, hg]⟩

/-- **What is pending holds zeros, unless something was written over it.**  After any run of requests
    for any sites, the field of a pending site is zero just when every byte that the run wrote last
    in it is zero.  So it is when no granted request lies across it, and all pending fields are when
    the granted requests name recorded sites or keep off the fields of these. -/
theorem pending_zeroed (edits : List Edit) (requests : List Request)
    (hsize : (Draft.ofEdits edits).size < Offset.limit) :
    let built := (Draft.ofEdits edits).finish
    let image := built.attemptAll requests
    (∀ s ∈ image.pending,
      (s.contents image.bytes = List.replicate s.width.bytes 0 ↔
        ∀ i, s.Covers i → ∀ b, built.lastByte? i requests = some b → b = 0) ∧
      ((∀ r ∈ requests, built.grants r = true → r.site.Apart s) →
        s.contents image.bytes = List.replicate s.width.bytes 0)) ∧
    ((∀ r ∈ requests, built.grants r = true →
        r.site ∈ built.pending ∨ ∀ s ∈ built.pending, r.site.Apart s) →
      ∀ s ∈ image.pending, s.contents image.bytes = List.replicate s.width.bytes 0) := by
  intro built image
  have hb : built.LaidOut := Draft.laidOut_ofEdits hsize
  have hexact : ∀ s ∈ image.pending,
      (s.contents image.bytes = List.replicate s.width.bytes 0 ↔
        ∀ i, s.Covers i → ∀ b, built.lastByte? i requests = some b → b = 0) :=
    fun s hs => contents_attemptAll_eq_zeros_iff hb (mem_pending_attemptAll_iff.mp hs).1 requests
  have hapart : ∀ s ∈ image.pending,
      (∀ r ∈ requests, built.grants r = true → r.site.Apart s) →
        s.contents image.bytes = List.replicate s.width.bytes 0 := by
    intro s hs h
    refine (hexact s hs).mpr fun i hi b hlast => ?_
    rw [lastByte?_eq_none fun r hr hg => (h r hr hg).symm.not_covers hi] at hlast
    cases hlast
  refine ⟨fun s hs => ⟨hexact s hs, hapart s hs⟩, fun h s hs => hapart s hs fun r hr hg => ?_⟩
  have hrecorded : s ∈ built.pending := (mem_pending_attemptAll_iff.mp hs).1
  rcases h r hr hg with hsite | hsite
  · exact hb.apart_of_ne hsite hrecorded (ne_of_mem_pending hs hr hg)
  · exact hsite s hrecorded

/-- A field that is pending and zero although a made-up site was resolved that lies across it, and
    another one over the opcode in front of a field that is settled. -/
theorem pending_zeroed_lea :
    let edits : List Edit := [.instruction .jmpShort, .instruction (.lea .rsi), .instruction .ret]
    let lea := Site.trailing 2 7 .rel32
    let requests : List Request :=
      [⟨⟨5, 4, 5, .rel32⟩, 9⟩, ⟨.trailing 0 2 .rel8, 9⟩, ⟨⟨0, 1, 0, .rel8⟩, 0⟩]
    let built := (Draft.ofEdits edits).finish
    let image := built.attemptAll requests
    (Draft.ofEdits edits).size < Offset.limit ∧ (∀ r ∈ requests, built.grants r = true) ∧
      image.pending = [lea] ∧ image.bytes.take 2 = [0xFF, 0x07] ∧
      lea.contents image.bytes = [0, 0, 0, 0] := by
  intro edits lea requests built image
  have hsize : (Draft.ofEdits edits).size < Offset.limit := by decide
  have hpending : image.pending = [lea] := by decide
  obtain ⟨hexact, -⟩ := pending_zeroed edits requests hsize
  refine ⟨hsize, by decide, hpending, by decide, ?_⟩
  refine (hexact lea (hpending ▸ List.mem_singleton_self lea)).1.mpr ?_
  rintro i ⟨lo, hi⟩ b hb
  have hlast : ∀ j, j < 4 → built.lastByte? (5 + j) requests = some 0 := by decide
  have hj : i - 5 < 4 := by
    have hstop : i < 9 := hi
    omega
  have hat : 5 + (i - 5) = i := by
    have hstart : 5 ≤ i := lo
    omega
  have hzero := hlast (i - 5) hj
  rw [hat, hb] at hzero
  exact Option.some.inj hzero

/-- **A field that is pending and not zero**: a made-up site of one byte lies over the field of a
    jump, and its request is granted. -/
theorem pending_overwritten :
    let built := (Draft.ofEdits [.instruction .jmpShort, .instruction .ret]).finish
    let image := built.attemptAll [⟨⟨1, 1, 1, .rel8⟩, 0⟩]
    let jmp := Site.trailing 0 2 .rel8
    jmp ∈ image.pending ∧ jmp.contents image.bytes = [0xFE] ∧
      jmp.contents image.bytes ≠ List.replicate jmp.width.bytes 0 := by
  decide

end Image

end Emplace
