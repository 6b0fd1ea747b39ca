import Emplace.Draft.Edit

/-
  The layout of what a draft has grown to.

  A recorded site lies where its instruction was written.  As bytes are only added at the end, the
  instructions of all recorded sites follow one another, none of them reaches into the data segment,
  and every field still holds the zeros that it was written with.  This is `Image.LaidOut`.  It is
  a statement about an image; for a draft it is made about the image that `finish` would give.

  Main statements:

    * `laidOut_ofEdits`: whatever the edits, what they leave is laid out, as long as every offset in
      it is an offset of the machine;
    * `LaidOut.eq_or_apart`: two recorded sites are the same or their instructions do not meet;
    * `pending_run`: an edit's site is the only one that meets the bytes which the edit wrote.
-/

namespace Emplace

/-! ## Sites and the bytes they are about -/

namespace Site

/-- The instruction lies in the first `size` bytes and ends in its field. -/
structure Fits (s : Site) (size : Nat) : Prop where
  field_add : s.field + s.width.bytes = s.start + s.length
  start_le : s.start ≤ s.field
  stop_le : s.start + s.length ≤ size

/-- Whether the byte at an offset belongs to the field. -/
def Covers (s : Site) (i : Nat) : Prop := s.field ≤ i ∧ i < s.field + s.width.bytes

instance (s : Site) (i : Nat) : Decidable (s.Covers i) := by unfold Covers; infer_instance

theorem not_covers_iff {s : Site} {i : Nat} :
    ¬ s.Covers i ↔ i < s.field ∨ s.field + s.width.bytes ≤ i := by
  unfold Covers
  omega

/-- A byte of the field is one of as many as the field has. -/
theorem Covers.sub_lt {s : Site} {i : Nat} (h : s.Covers i) : i - s.field < s.width.bytes := by
  obtain ⟨lo, hi⟩ := h
  omega

/-- What the field holds when the code is these bytes. -/
def contents (s : Site) (bytes : List UInt8) : List UInt8 :=
  (bytes.drop s.field).take s.width.bytes

theorem getElem?_contents (s : Site) (bytes : List UInt8) (j : Nat) :
    (s.contents bytes)[j]? = if j < s.width.bytes then bytes[s.field + j]? else none := by
  rw [contents, List.getElem?_take]
  split
  · rw [List.getElem?_drop]
  · rfl

/-- The contents depend on the covered bytes alone. -/
theorem contents_congr {s : Site} {bytes bytes' : List UInt8}
    (h : ∀ i, s.Covers i → bytes[i]? = bytes'[i]?) : s.contents bytes = s.contents bytes' := by
  apply List.ext_getElem?
  intro j
  rw [getElem?_contents, getElem?_contents]
  split
  · exact h _ ⟨by omega, by omega⟩
  · rfl

/-- The bytes of a field are its contents. -/
theorem getElem?_of_covers {s : Site} {bytes new : List UInt8} (h : s.contents bytes = new)
    {i : Nat} (hi : s.Covers i) : bytes[i]? = new[i - s.field]? := by
  have hat : s.field + (i - s.field) = i := Nat.add_sub_of_le hi.1
  rw [← h, getElem?_contents, if_pos hi.sub_lt, hat]

/-- Equal contents are equal bytes. -/
theorem getElem?_of_contents {s : Site} {bytes bytes' : List UInt8}
    (h : s.contents bytes = s.contents bytes') {i : Nat} (hi : s.Covers i) :
    bytes[i]? = bytes'[i]? := by
  rw [getElem?_of_covers h hi, getElem?_of_covers rfl hi]

theorem Fits.mono {s : Site} {size size' : Nat} (h : s.Fits size) (hle : size ≤ size') :
    s.Fits size' :=
  ⟨h.field_add, h.start_le, Nat.le_trans h.stop_le hle⟩

/-- Bytes that are added behind the instruction do not change what its field holds. -/
theorem Fits.contents_append {s : Site} {bytes : List UInt8} (h : s.Fits bytes.length)
    (more : List UInt8) : s.contents (bytes ++ more) = s.contents bytes := by
  apply contents_congr
  intro i hi
  have h₁ := h.field_add
  have h₂ := h.stop_le
  have h₃ := hi.2
  exact List.getElem?_append_left (by omega)

end Site

/-! ## The layout of an image -/

namespace Image

/-- The recorded sites fit, their instructions follow one another, their fields hold zeros, and
    the data segment lies apart from all of them. -/
structure LaidOut (image : Image) : Prop where
  fits : ∀ s ∈ image.pending, s.Fits image.size
  ordered : image.pending.Pairwise fun s s' => s.start + s.length ≤ s'.start
  zeroed : ∀ s ∈ image.pending, s.contents image.bytes = List.replicate s.width.bytes 0
  span_le : ∀ span ∈ image.data, span.start ≤ span.stop ∧ span.stop ≤ image.size
  apart : ∀ span ∈ image.data, ∀ s ∈ image.pending,
    s.start + s.length ≤ span.start ∨ span.stop ≤ s.start

namespace LaidOut

variable {image : Image} (h : image.LaidOut)
include h

/-- The instructions of two recorded sites are one or do not meet. -/
theorem eq_or_apart {s s' : Site} (hs : s ∈ image.pending) (hs' : s' ∈ image.pending) :
    s = s' ∨ s.start + s.length ≤ s'.start ∨ s'.start + s'.length ≤ s.start := by
  obtain ⟨i, hi, rfl⟩ := List.mem_iff_getElem.mp hs
  obtain ⟨j, hj, rfl⟩ := List.mem_iff_getElem.mp hs'
  have hall := List.pairwise_iff_getElem.mp h.ordered
  rcases Nat.lt_trichotomy i j with hij | rfl | hij
  · exact .inr (.inl (hall i j hi hj hij))
  · exact .inl rfl
  · exact .inr (.inr (hall j i hj hi hij))

/-- No byte belongs to the fields of two recorded sites. -/
theorem eq_of_covers {s s' : Site} (hs : s ∈ image.pending) (hs' : s' ∈ image.pending) {i : Nat}
    (hi : s.Covers i) (hi' : s'.Covers i) : s = s' := by
  have f := h.fits s hs
  have f' := h.fits s' hs'
  obtain ⟨lo, hi⟩ := hi
  obtain ⟨lo', hi'⟩ := hi'
  have h₁ := f.field_add
  have h₂ := f'.field_add
  have h₃ := f.start_le
  have h₄ := f'.start_le
  rcases h.eq_or_apart hs hs' with heq | hlt | hlt
  · exact heq
  · omega
  · omega

/-- No byte of the data segment belongs to a field. -/
theorem not_covers_data {span : Span} (hspan : span ∈ image.data) {s : Site}
    (hs : s ∈ image.pending) {i : Nat} (lo : span.start ≤ i) (hi : i < span.stop) :
    ¬ s.Covers i := by
  rintro ⟨lo', hi'⟩
  have h₁ := (h.fits s hs).field_add
  have h₂ := (h.fits s hs).start_le
  rcases h.apart span hspan s hs with hlt | hlt <;> omega

end LaidOut

end Image

/-! ## What a step adds -/

namespace Draft

/-- The site that an edit of the draft leaves open. -/
def site? (d : Draft) (e : Edit) : Option Site := e.open?.map (d.nextSite e.leading)

/-- All that a step can do: it adds bytes, or an instruction with an open field, or the data
    segment, or it is refused. -/
theorem step_cases (d : Draft) (e : Edit) :
    (e.open? = none ∧ (∀ bytes, e ≠ .data bytes) ∧ d.step e = d.append e.leading) ∨
    (∃ width, e.open? = some width ∧ d.step e = d.reserve e.leading width) ∨
    (∃ bytes, e = .data bytes ∧ d.data = none ∧ d.step e =
      { d with bytes := d.bytes ++ bytes, data := some ⟨d.size, d.size + bytes.length⟩ }) ∨
    (∃ bytes, e = .data bytes ∧ d.data.isSome = true ∧ d.step e = d) := by
  by_cases hdata : ∃ bytes, e = .data bytes
  · obtain ⟨bytes, rfl⟩ := hdata
    refine .inr (.inr ?_)
    cases hd : d.data with
    | none => exact .inl ⟨bytes, rfl, rfl, by simp [step, apply, appendData, hd, Except.map]⟩
    | some span => exact .inr ⟨bytes, rfl, rfl, by simp [step, apply, appendData, hd, Except.map]⟩
  · have hne : ∀ bytes, e ≠ .data bytes := fun bytes he => hdata ⟨bytes, he⟩
    have hstep : d.step e = (d.write e).2 := by
      cases e with
      | data bytes => exact absurd rfl (hne bytes)
      | _ => rfl
    cases ho : e.open? with
    | none => exact .inl ⟨rfl, hne, by simp only [hstep, write, ho]⟩
    | some width => exact .inr (.inl ⟨width, rfl, by simp only [hstep, write, ho]⟩)

theorem pending_step (d : Draft) (e : Edit) :
    (d.step e).pending = d.pending ++ (d.site? e).toList := by
  rcases step_cases d e with ⟨ho, -, h⟩ | ⟨width, ho, h⟩ | ⟨bytes, rfl, -, h⟩ | ⟨bytes, rfl, -, h⟩
  · simp [h, site?, ho, append]
  · simp [h, site?, ho, reserve]
  · simp [h, site?, Edit.open?]
  · simp [h, site?, Edit.open?]

/-- A step only adds bytes at the end. -/
theorem bytes_step (d : Draft) (e : Edit) : ∃ more, (d.step e).bytes = d.bytes ++ more := by
  rcases step_cases d e with ⟨-, -, h⟩ | ⟨width, -, h⟩ | ⟨bytes, rfl, -, h⟩ | ⟨bytes, rfl, -, h⟩
  · exact ⟨e.leading, by rw [h]; rfl⟩
  · exact ⟨e.leading ++ List.replicate width.bytes 0, by rw [h]; rfl⟩
  · exact ⟨bytes, by rw [h]⟩
  · exact ⟨[], by rw [h, List.append_nil]⟩

theorem size_le_step (d : Draft) (e : Edit) : d.size ≤ (d.step e).size := by
  obtain ⟨more, h⟩ := bytes_step d e
  rw [size, size, h, List.length_append]
  exact Nat.le_add_right _ _

/-- A data segment stays the one data segment. -/
theorem data_step_of_isSome {d : Draft} (e : Edit) (h : d.data.isSome = true) :
    (d.step e).data = d.data := by
  rcases step_cases d e with ⟨-, -, hs⟩ | ⟨width, -, hs⟩ | ⟨bytes, rfl, hd, -⟩ | ⟨bytes, rfl, -, hs⟩
  · rw [hs]; rfl
  · rw [hs]; rfl
  · rw [hd] at h; exact absurd h (by decide)
  · rw [hs]

/-! ## Steps keep the layout -/

/-- The site of an instruction at the end of the draft fits as soon as its offsets do. -/
theorem fits_nextSite {d : Draft} {leading : List UInt8} {width : FieldWidth}
    (h : (d.reserve leading width).size < Offset.limit) :
    (d.nextSite leading width).Fits (d.reserve leading width).size := by
  have hsize : (d.reserve leading width).size = d.size + (leading.length + width.bytes) := by
    simp [reserve, size]
  have hsum : Offset.saturatingAdd d.size (leading.length + width.bytes) =
      d.size + (leading.length + width.bytes) :=
    Offset.saturatingAdd_eq_of_lt (by omega)
  refine ⟨?_, ?_, ?_⟩
  · show Offset.saturatingAdd d.size (leading.length + width.bytes) - width.bytes + width.bytes = _
    rw [hsum]
    show _ = d.size + (leading.length + width.bytes)
    omega
  · show d.size ≤ Offset.saturatingAdd d.size (leading.length + width.bytes) - width.bytes
    rw [hsum]
    omega
  · rw [hsize]
    exact Nat.le_refl _

/-- Where the field of that site starts: behind the bytes that lead up to it. -/
theorem field_nextSite {d : Draft} {leading : List UInt8} {width : FieldWidth}
    (h : (d.reserve leading width).size < Offset.limit) :
    (d.nextSite leading width).field = d.size + leading.length := by
  have hfits := (fits_nextSite h).field_add
  have hsum : (d.nextSite leading width).start + (d.nextSite leading width).length =
      d.size + (leading.length + width.bytes) := rfl
  have hwidth : (d.nextSite leading width).width = width := rfl
  rw [hsum, hwidth] at hfits
  omega

end Draft

namespace Image.LaidOut

open Draft

theorem append {d : Draft} (h : d.finish.LaidOut) (bytes : List UInt8) :
    (d.append bytes).finish.LaidOut := by
  have hle : d.finish.size ≤ (d.append bytes).finish.size := by
    show d.bytes.length ≤ (d.bytes ++ bytes).length
    simp
  constructor
  · intro s hs
    exact (h.fits s hs).mono hle
  · exact h.ordered
  · intro s hs
    exact ((h.fits s hs).contents_append bytes).trans (h.zeroed s hs)
  · intro span hspan
    obtain ⟨h₁, h₂⟩ := h.span_le span hspan
    exact ⟨h₁, Nat.le_trans h₂ hle⟩
  · exact h.apart

theorem reserve {d : Draft} {leading : List UInt8} {width : FieldWidth} (h : d.finish.LaidOut)
    (hsize : (d.reserve leading width).size < Offset.limit) :
    (d.reserve leading width).finish.LaidOut := by
  have hle : d.finish.size ≤ (d.reserve leading width).finish.size := by
    show d.bytes.length ≤ (d.bytes ++ (leading ++ List.replicate width.bytes 0)).length
    simp
  have hnew : (d.nextSite leading width).contents
      (d.bytes ++ (leading ++ List.replicate width.bytes 0)) = List.replicate width.bytes 0 := by
    rw [Site.contents, field_nextSite hsize, ← List.append_assoc,
      List.drop_left' (by simp [Draft.size])]
    exact List.take_of_length_le (by simp [nextSite, Site.trailing])
  have hmem : ∀ s ∈ (d.reserve leading width).finish.pending,
      s ∈ d.finish.pending ∨ s = d.nextSite leading width := by
    intro s hs
    have hs' : s ∈ d.pending ++ [d.nextSite leading width] := hs
    rcases List.mem_append.mp hs' with hs' | hs'
    · exact .inl hs'
    · exact .inr (List.mem_singleton.mp hs')
  constructor
  · intro s hs
    rcases hmem s hs with hs | rfl
    · exact (h.fits s hs).mono hle
    · exact fits_nextSite hsize
  · show (d.pending ++ [d.nextSite leading width]).Pairwise _
    refine List.pairwise_append.mpr ⟨h.ordered, List.pairwise_singleton _ _, ?_⟩
    intro s hs s' hs'
    rw [List.mem_singleton.mp hs']
    exact (h.fits s hs).stop_le
  · intro s hs
    rcases hmem s hs with hs | rfl
    · exact ((h.fits s hs).contents_append _).trans (h.zeroed s hs)
    · exact hnew
  · intro span hspan
    obtain ⟨h₁, h₂⟩ := h.span_le span hspan
    exact ⟨h₁, Nat.le_trans h₂ hle⟩
  · intro span hspan s hs
    rcases hmem s hs with hs | rfl
    · exact h.apart span hspan s hs
    · exact .inr (h.span_le span hspan).2

theorem data {d : Draft} (h : d.finish.LaidOut) (bytes : List UInt8) :
    (Draft.mk (d.bytes ++ bytes) (some ⟨d.size, d.size + bytes.length⟩)
      d.pending).finish.LaidOut := by
  have happ := h.append bytes
  refine ⟨happ.fits, happ.ordered, happ.zeroed, ?_, ?_⟩
  · intro span hspan
    obtain rfl := Option.some.inj hspan
    refine ⟨Nat.le_add_right _ _, ?_⟩
    show d.bytes.length + bytes.length ≤ (d.bytes ++ bytes).length
    simp
  · intro span hspan s hs
    obtain rfl := Option.some.inj hspan
    exact .inl (h.fits s hs).stop_le

/-- Every step keeps the layout. -/
theorem step {d : Draft} (h : d.finish.LaidOut) (e : Edit)
    (hsize : (d.step e).size < Offset.limit) : (d.step e).finish.LaidOut := by
  rcases step_cases d e with ⟨-, -, hs⟩ | ⟨width, -, hs⟩ | ⟨bytes, rfl, -, hs⟩ | ⟨bytes, rfl, -, hs⟩
  · rw [hs]
    exact h.append e.leading
  · rw [hs] at hsize ⊢
    exact h.reserve hsize
  · rw [hs]
    exact h.data bytes
  · rw [hs]
    exact h

end Image.LaidOut

/-! ## Runs -/

namespace Draft

theorem run_append (d : Draft) (edits more : List Edit) :
    d.run (edits ++ more) = (d.run edits).run more :=
  List.foldl_append

theorem run_cons (d : Draft) (e : Edit) (edits : List Edit) :
    d.run (e :: edits) = (d.step e).run edits :=
  rfl

/-- A run only adds bytes at the end. -/
theorem bytes_run (d : Draft) (edits : List Edit) :
    ∃ more, (d.run edits).bytes = d.bytes ++ more := by
  induction edits generalizing d with
  | nil => exact ⟨[], (List.append_nil _).symm⟩
  | cons e edits ih =>
    obtain ⟨more, h⟩ := bytes_step d e
    obtain ⟨more', h'⟩ := ih (d.step e)
    exact ⟨more ++ more', by rw [run_cons, h', h, List.append_assoc]⟩

theorem size_le_run (d : Draft) (edits : List Edit) : d.size ≤ (d.run edits).size := by
  obtain ⟨more, h⟩ := bytes_run d edits
  rw [size, size, h, List.length_append]
  exact Nat.le_add_right _ _

theorem data_run_of_isSome {d : Draft} (edits : List Edit) (h : d.data.isSome = true) :
    (d.run edits).data = d.data := by
  induction edits generalizing d with
  | nil => rfl
  | cons e edits ih =>
    have hd := data_step_of_isSome e h
    rw [run_cons, ih (by rw [hd]; exact h), hd]

/-- A run records the sites that it finds, and others only behind all bytes that it finds. -/
theorem pending_run {d : Draft} {edits : List Edit} {s : Site} (hs : s ∈ (d.run edits).pending) :
    s ∈ d.pending ∨ d.size ≤ s.start := by
  induction edits generalizing d with
  | nil => exact .inl hs
  | cons e edits ih =>
    rcases ih hs with hold | hnew
    · rw [pending_step, List.mem_append, Option.mem_toList] at hold
      rcases hold with hold | hnew
      · exact .inl hold
      · obtain ⟨width, -, rfl⟩ := Option.map_eq_some_iff.mp hnew
        exact .inr (Nat.le_refl _)
    · exact .inr (Nat.le_trans (size_le_step d e) hnew)

/-- Sites are not forgotten. -/
theorem mem_pending_run {d : Draft} {s : Site} (hs : s ∈ d.pending) (edits : List Edit) :
    s ∈ (d.run edits).pending := by
  induction edits generalizing d with
  | nil => exact hs
  | cons e edits ih =>
    refine ih ?_
    rw [pending_step]
    exact List.mem_append_left _ hs

theorem laidOut_empty : empty.finish.LaidOut :=
  ⟨by simp [empty, finish], List.Pairwise.nil, by simp [empty, finish], by simp [empty, finish],
    by simp [empty, finish]⟩

theorem laidOut_run {d : Draft} (h : d.finish.LaidOut) {edits : List Edit}
    (hsize : (d.run edits).size < Offset.limit) : (d.run edits).finish.LaidOut := by
  induction edits generalizing d with
  | nil => exact h
  | cons e edits ih =>
    have hstep : (d.step e).size < Offset.limit :=
      Nat.lt_of_le_of_lt (size_le_run (d.step e) edits) hsize
    exact ih (h.step e hstep) hsize

/-- **Whatever is written is laid out.** -/
theorem laidOut_ofEdits {edits : List Edit} (h : (ofEdits edits).size < Offset.limit) :
    (ofEdits edits).finish.LaidOut :=
  laidOut_run laidOut_empty h

end Draft

end Emplace
