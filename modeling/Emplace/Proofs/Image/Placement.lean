import Emplace.Proofs.Draft.Transcript
import Emplace.Proofs.Image.Relocation

/-
  Where emissions lie in an image, and what lies there after a run of resolutions.

  An emission that is written behind other edits lies at the size of the draft that they make.
  Whatever is written later, and whichever recorded sites are resolved, its bytes are those of its
  encoding: the displacement in its field is the one to the last target of its own site, or zero
  (`Relocated.slice`).  Its leading bytes are safe because every other recorded instruction lies
  entirely before or behind it.

  `code_relocated` puts the slices together: the code of an image that was written emission by
  emission is the list of their encodings, and ends where the data begins.
-/

namespace Emplace

open X64 (Emission)

/-! ## Emissions one after the other -/

namespace X64.Emission

/-- The number of bytes of emissions that follow one another. -/
def extent : List Emission → Nat
  | [] => 0
  | e :: es => e.length + extent es

/-- Emissions with the offsets at which they are written, the first one at `offset`. -/
def placed : Nat → List Emission → List (Nat × Emission)
  | _, [] => []
  | offset, e :: es => (offset, e) :: placed (offset + e.length) es

/-- The site of an emission that is written at an offset. -/
def siteAt? (offset : Nat) (e : Emission) : Option Site :=
  e.field?.map fun width => .trailing offset e.length width

/-- The displacement in the field of an emission at an offset when the sites were last resolved to
    these targets: zero as long as its own was not. -/
def displacementAt (target? : Site → Option Nat) (offset : Nat) (e : Emission) : Int :=
  match e.siteAt? offset with
  | some s => ((target? s).map s.displacement).getD 0
  | none => 0

theorem length_pos (e : Emission) : 0 < e.length := by
  have hleading : 0 < e.leading.length := by cases e <;> exact Nat.succ_pos _
  exact Nat.lt_of_lt_of_le hleading (Nat.le_add_right _ _)

theorem extent_append (es es' : List Emission) : extent (es ++ es') = extent es + extent es' := by
  induction es with
  | nil => exact (Nat.zero_add _).symm
  | cons e es ih =>
    show e.length + extent (es ++ es') = e.length + extent es + extent es'
    rw [ih, Nat.add_assoc]

theorem placed_append (offset : Nat) (es es' : List Emission) :
    placed offset (es ++ es') = placed offset es ++ placed (offset + extent es) es' := by
  induction es generalizing offset with
  | nil => rfl
  | cons e es ih =>
    show (offset, e) :: placed (offset + e.length) (es ++ es') = _
    rw [ih, Nat.add_assoc]
    rfl

/-- A placed emission lies behind the emissions before it. -/
theorem exists_of_mem_placed {offset o : Nat} {es : List Emission} {e : Emission}
    (h : (o, e) ∈ placed offset es) :
    ∃ front back, es = front ++ e :: back ∧ o = offset + extent front := by
  induction es generalizing offset with
  | nil => cases h
  | cons e' es ih =>
    rcases List.mem_cons.mp h with heq | hmem
    · obtain ⟨rfl, rfl⟩ := Prod.mk.inj heq
      exact ⟨[], es, rfl, rfl⟩
    · obtain ⟨front, back, rfl, rfl⟩ := ih hmem
      exact ⟨e' :: front, back, rfl, Nat.add_assoc _ _ _⟩

/-- Every emission is placed, behind the ones before it. -/
theorem mem_placed_of_getElem? {offset i : Nat} {es : List Emission} {e : Emission}
    (h : es[i]? = some e) : (offset + extent (es.take i), e) ∈ placed offset es := by
  obtain ⟨hi, rfl⟩ := List.getElem?_eq_some_iff.mp h
  have hsplit : es.take i ++ es[i] :: es.drop (i + 1) = es := by
    rw [← List.drop_eq_getElem_cons hi, List.take_append_drop]
  have hplaced := placed_append offset (es.take i) (es[i] :: es.drop (i + 1))
  rw [hsplit] at hplaced
  rw [hplaced]
  exact List.mem_append_right _ (List.mem_cons_self ..)

/-- A list of bytes that holds the right bytes for each placed emission holds them all in a row. -/
theorem take_extent {bytes : List UInt8} {encoding : Nat × Emission → List UInt8} {offset : Nat}
    {es : List Emission}
    (h : ∀ p ∈ placed offset es, (bytes.drop p.1).take p.2.length = encoding p) :
    (bytes.drop offset).take (extent es) = (placed offset es).flatMap encoding := by
  induction es generalizing offset with
  | nil => rfl
  | cons e es ih =>
    have hhead : (bytes.drop offset).take e.length = encoding (offset, e) :=
      h (offset, e) (List.mem_cons_self ..)
    have htail := ih fun p hp => h p (List.mem_cons_of_mem _ hp)
    show (bytes.drop offset).take (e.length + extent es) = _
    rw [List.take_add, hhead, List.drop_drop, htail]
    rfl

theorem length_of_field {e : Emission} {width : FieldWidth} (h : e.field? = some width) :
    e.length = e.leading.length + width.bytes := by
  rw [length, h]
  rfl

theorem length_of_no_field {e : Emission} (h : e.field? = none) : e.length = e.leading.length := by
  rw [length, h]
  rfl

end X64.Emission

/-! ## Writing an emission -/

namespace Draft

theorem bytes_step_instruction (d : Draft) (e : Emission) :
    (d.step (.instruction e)).bytes = d.bytes ++ e.encode 0 := by
  rw [← Edit.bytes_instruction]
  exact bytes_write d (.instruction e)

theorem size_step_instruction (d : Draft) (e : Emission) :
    (d.step (.instruction e)).size = d.size + e.length := by
  rw [size, bytes_step_instruction, List.length_append, Emission.length_encode]
  rfl

theorem site?_instruction (d : Draft) (e : Emission) :
    d.site? (.instruction e) = e.siteAt? d.size := by
  show e.field?.map (d.nextSite e.leading) = e.field?.map _
  cases h : e.field? with
  | none => rfl
  | some width =>
    rw [Option.map_some, Option.map_some, nextSite, Emission.length_of_field h]

theorem size_run_instructions (d : Draft) (es : List Emission) :
    (d.run (es.map .instruction)).size = d.size + Emission.extent es := by
  induction es generalizing d with
  | nil => rfl
  | cons e es ih =>
    rw [List.map_cons, run_cons, ih, size_step_instruction, Nat.add_assoc]
    rfl

theorem data_run_instructions (d : Draft) (es : List Emission) :
    (d.run (es.map .instruction)).data = d.data := by
  induction es generalizing d with
  | nil => rfl
  | cons e es ih =>
    have hstep : (d.step (.instruction e)).data = d.data := by
      show (d.write (.instruction e)).2.data = d.data
      unfold write
      split <;> rfl
    rw [List.map_cons, run_cons, ih, hstep]

end Draft

/-! ## The slice of an emission -/

namespace Image.Relocated

variable {before after : List Edit} {e : Emission} {target? : Site → Option Nat} {image : Image}

/-- A recorded site lies before an emission, is its own, or lies behind it. -/
theorem site_cases (hsize : (Draft.ofEdits (before ++ .instruction e :: after)).size < Offset.limit)
    {s : Site} (hs : s ∈ (Draft.ofEdits (before ++ .instruction e :: after)).pending) :
    s.start + s.length ≤ (Draft.ofEdits before).size ∨
      e.siteAt? (Draft.ofEdits before).size = some s ∨
      (Draft.ofEdits before).size + e.length ≤ s.start := by
  rw [Draft.ofEdits, Draft.run_append, Draft.run_cons] at hs hsize
  have hle : (Draft.ofEdits before).size ≤ _ := Nat.le_trans
    (Draft.size_le_step (Draft.ofEdits before) (.instruction e)) (Draft.size_le_run _ after)
  have hlaid := Draft.laidOut_ofEdits (Nat.lt_of_le_of_lt hle hsize)
  rcases Draft.pending_run hs with hold | hlater
  · rw [Draft.pending_step, List.mem_append, Option.mem_toList, Draft.site?_instruction] at hold
    rcases hold with hbefore | hown
    · exact .inl (hlaid.fits s hbefore).stop_le
    · exact .inr (.inl hown)
  · rw [Draft.size_step_instruction] at hlater
    exact .inr (.inr hlater)

/-- The site of an emission that leaves a field open: it is recorded, and the field starts behind
    the leading bytes. -/
theorem site_of_field {width : FieldWidth} (hf : e.field? = some width)
    (hsize : (Draft.ofEdits (before ++ .instruction e :: after)).size < Offset.limit) :
    ∃ s, e.siteAt? (Draft.ofEdits before).size = some s ∧ s.width = width ∧
      s ∈ (Draft.ofEdits (before ++ .instruction e :: after)).pending ∧
      s.start = (Draft.ofEdits before).size ∧ s.length = e.length ∧
      s.field = (Draft.ofEdits before).size + e.leading.length := by
  have hsite : e.siteAt? (Draft.ofEdits before).size =
      some (.trailing (Draft.ofEdits before).size e.length width) := by
    rw [Emission.siteAt?, hf]
    rfl
  have hmem : Site.trailing (Draft.ofEdits before).size e.length width ∈
      (Draft.ofEdits (before ++ .instruction e :: after)).pending := by
    rw [Draft.ofEdits, Draft.run_append, Draft.run_cons]
    apply Draft.mem_pending_run
    rw [Draft.pending_step, List.mem_append, Option.mem_toList, Draft.site?_instruction]
    exact .inr hsite
  refine ⟨_, hsite, rfl, hmem, rfl, rfl, ?_⟩
  have hadd := ((Draft.laidOut_ofEdits hsize).fits _ hmem).field_add
  have hlen := Emission.length_of_field hf
  simp only [Site.trailing] at hadd ⊢
  omega

/-- Resolving leaves the leading bytes of every emission as they were written. -/
theorem take_leading
    (hsize : (Draft.ofEdits (before ++ .instruction e :: after)).size < Offset.limit)
    (h : Relocated (Draft.ofEdits (before ++ .instruction e :: after)).finish target? image) :
    (image.bytes.drop (Draft.ofEdits before).size).take e.leading.length = e.leading := by
  have hlaid := Draft.laidOut_ofEdits hsize
  have hle : e.leading.length ≤ e.length := by
    rw [Emission.length]
    exact Nat.le_add_right _ _
  -- as built, the emission's bytes follow those of the edits before it
  obtain ⟨more, hmore⟩ : ∃ more, (Draft.ofEdits (before ++ .instruction e :: after)).bytes =
      (Draft.ofEdits before).bytes ++ (e.leading ++ more) := by
    obtain ⟨more, hmore⟩ := Draft.bytes_run ((Draft.ofEdits before).step (.instruction e)) after
    rw [Draft.bytes_step_instruction, Emission.encode, List.append_assoc,
      List.append_assoc] at hmore
    exact ⟨_, by rw [Draft.ofEdits, Draft.run_append, Draft.run_cons]; exact hmore⟩
  have hbuilt : ((Draft.ofEdits (before ++ .instruction e :: after)).bytes.drop
      (Draft.ofEdits before).size).take e.leading.length = e.leading := by
    rw [hmore, Draft.size, List.drop_left, List.take_left]
  rw [← hbuilt]
  apply List.ext_getElem?
  intro j
  rw [List.getElem?_take, List.getElem?_take, hbuilt]
  split
  · rename_i hj
    rw [List.getElem?_drop, List.getElem?_drop]
    apply h.frame
    rintro s hs - ⟨lo, hi⟩
    have hfits := hlaid.fits s hs
    have hadd := hfits.field_add
    have hstart := hfits.start_le
    rcases site_cases hsize hs with hbefore | hown | hbehind
    · omega
    · -- the emission's own field lies behind its leading bytes
      obtain ⟨width, hf, rfl⟩ := Option.map_eq_some_iff.mp hown
      obtain ⟨s', hs', -, -, -, -, hfield⟩ := site_of_field hf hsize
      obtain rfl := Option.some.inj (hown.symm.trans hs')
      omega
    · omega
  · rfl

/-- **What lies where an emission was written**: its encoding, with the displacement to the last
    target of its site. -/
theorem slice (hsize : (Draft.ofEdits (before ++ .instruction e :: after)).size < Offset.limit)
    (h : Relocated (Draft.ofEdits (before ++ .instruction e :: after)).finish target? image) :
    (image.bytes.drop (Draft.ofEdits before).size).take e.length =
      e.encode (e.displacementAt target? (Draft.ofEdits before).size) := by
  have hlaid := Draft.laidOut_ofEdits hsize
  have hleading := h.take_leading hsize
  cases hf : e.field? with
  | none =>
    rw [Emission.length_of_no_field hf, hleading, Emission.encode, hf]
    exact (List.append_nil _).symm
  | some width =>
    obtain ⟨s, hsite, rfl, hs, -, -, hfield⟩ := site_of_field hf hsize
    have hcontents : s.contents image.bytes = LittleEndian.encodeInt s.width.bytes
        (e.displacementAt target? (Draft.ofEdits before).size) := by
      simp only [Emission.displacementAt, hsite]
      cases ht : target? s with
      | none =>
        rw [h.zeroed hlaid hs ht]
        exact (LittleEndian.encodeInt_zero _).symm
      | some target => exact h.field s hs target ht
    rw [Emission.length_of_field hf, List.take_add, hleading, List.drop_drop, ← hfield]
    show e.leading ++ s.contents image.bytes = _
    rw [hcontents, Emission.encode, hf]
    rfl

end Image.Relocated

/-! ## Code written emission by emission -/

/-- The edits that write emissions and then, if so wanted, the data segment with anything behind
    it. -/
def Draft.writing (es : List Emission) : Option (List UInt8 × List Edit) → List Edit
  | some (bytes, more) => es.map .instruction ++ .data bytes :: more
  | none => es.map .instruction

namespace Image.Relocated

variable {es : List Emission} {rest? : Option (List UInt8 × List Edit)}
  {target? : Site → Option Nat} {image : Image}

/-- A placed emission is written where it is placed. -/
theorem exists_edits_of_mem_placed {p : Nat × Emission} (hp : p ∈ Emission.placed 0 es)
    (rest? : Option (List UInt8 × List Edit)) :
    ∃ before after, Draft.writing es rest? = before ++ .instruction p.2 :: after ∧
      (Draft.ofEdits before).size = p.1 := by
  obtain ⟨o, e⟩ := p
  obtain ⟨front, back, rfl, rfl⟩ := Emission.exists_of_mem_placed hp
  have hoffset : (Draft.ofEdits (front.map .instruction)).size = 0 + Emission.extent front :=
    Draft.size_run_instructions Draft.empty front
  cases rest? with
  | none => exact ⟨front.map .instruction, back.map .instruction, List.map_append, hoffset⟩
  | some rest =>
    refine ⟨front.map .instruction, back.map .instruction ++ .data rest.1 :: rest.2, ?_, hoffset⟩
    rw [Draft.writing, List.map_append, List.map_cons, List.append_assoc, List.cons_append]

theorem stop_le_of_mem_placed {p : Nat × Emission} (hp : p ∈ Emission.placed 0 es)
    (rest? : Option (List UInt8 × List Edit)) :
    p.1 + p.2.length ≤ (Draft.ofEdits (Draft.writing es rest?)).size := by
  obtain ⟨before, after, hedits, hoffset⟩ := exists_edits_of_mem_placed hp rest?
  rw [hedits, Draft.ofEdits, Draft.run_append, Draft.run_cons, ← hoffset, Draft.ofEdits,
    ← Draft.size_step_instruction]
  exact Draft.size_le_run _ after

/-- Each emission of the code is encoded where it was placed. -/
theorem slice_of_mem_placed (hsize : (Draft.ofEdits (Draft.writing es rest?)).size < Offset.limit)
    (h : Relocated (Draft.ofEdits (Draft.writing es rest?)).finish target? image)
    {p : Nat × Emission} (hp : p ∈ Emission.placed 0 es) :
    (image.bytes.drop p.1).take p.2.length = p.2.encode (p.2.displacementAt target? p.1) := by
  obtain ⟨before, after, hedits, hoffset⟩ := exists_edits_of_mem_placed hp rest?
  rw [hedits] at h hsize
  rw [← hoffset]
  exact h.slice hsize

/-- The site of a placed emission is recorded. -/
theorem mem_pending_of_mem_placed
    (hsize : (Draft.ofEdits (Draft.writing es rest?)).size < Offset.limit) {p : Nat × Emission}
    (hp : p ∈ Emission.placed 0 es) {s : Site} (hs : p.2.siteAt? p.1 = some s) :
    s ∈ (Draft.ofEdits (Draft.writing es rest?)).pending := by
  obtain ⟨before, after, hedits, hoffset⟩ := exists_edits_of_mem_placed hp rest?
  obtain ⟨width, hf, -⟩ := Option.map_eq_some_iff.mp hs
  rw [hedits] at hsize ⊢
  obtain ⟨s', hs', -, hmem, -⟩ := site_of_field hf hsize
  rw [hoffset] at hs'
  obtain rfl := Option.some.inj (hs.symm.trans hs')
  exact hmem

/-- The field of a placed emission can hold what is in it. -/
theorem holds_of_mem_placed (hsize : (Draft.ofEdits (Draft.writing es rest?)).size < Offset.limit)
    (h : Relocated (Draft.ofEdits (Draft.writing es rest?)).finish target? image)
    {p : Nat × Emission} (hp : p ∈ Emission.placed 0 es) {w : FieldWidth}
    (hw : w ∈ p.2.field?) : w.Holds (p.2.displacementAt target? p.1) := by
  have hsite : p.2.siteAt? p.1 = some (.trailing p.1 p.2.length w) := by
    rw [Emission.siteAt?, Option.mem_def.mp hw]
    rfl
  have hmem := mem_pending_of_mem_placed hsize hp hsite
  simp only [Emission.displacementAt, hsite]
  cases ht : target? (.trailing p.1 p.2.length w) with
  | none =>
    show w.Holds 0
    cases w <;> decide
  | some target => exact (h.reaches _ hmem target ht).2

/-- The code ends with the last emission, whatever lies behind it. -/
theorem code_eq_take (h : Relocated (Draft.ofEdits (Draft.writing es rest?)).finish target? image) :
    image.code = image.bytes.take (Emission.extent es) := by
  have hsize : (Draft.ofEdits (es.map .instruction)).size = Emission.extent es := by
    rw [Draft.ofEdits, Draft.size_run_instructions]
    exact Nat.zero_add _
  have hdata : (Draft.ofEdits (es.map .instruction)).data = none :=
    Draft.data_run_instructions Draft.empty es
  cases rest? with
  | none =>
    have hlen : image.bytes.length = Emission.extent es := h.size.trans hsize
    rw [code, h.data, show (Draft.ofEdits (Draft.writing es none)).finish.data = none from hdata,
      ← hlen]
    exact List.take_length.symm
  | some rest =>
    obtain ⟨bytes, more⟩ := rest
    have hstep : ((Draft.ofEdits (es.map .instruction)).step (.data bytes)).data =
        some ⟨Emission.extent es, Emission.extent es + bytes.length⟩ := by
      rw [Draft.step, Draft.apply, Draft.appendData, hdata, ← hsize]
      rfl
    have hspan : (Draft.ofEdits (Draft.writing es (some (bytes, more)))).data =
        some ⟨Emission.extent es, Emission.extent es + bytes.length⟩ := by
      rw [Draft.writing, Draft.ofEdits, Draft.run_append, Draft.run_cons, ← hstep]
      exact Draft.data_run_of_isSome more (by rw [← Draft.ofEdits, hstep]; rfl)
    have hbuilt : image.data =
        some ⟨Emission.extent es, Emission.extent es + bytes.length⟩ :=
      h.data.trans hspan
    rw [code, hbuilt]

/-- The emissions of the code are all there. -/
theorem extent_le_size (es : List Emission) (rest? : Option (List UInt8 × List Edit)) :
    Emission.extent es ≤ (Draft.ofEdits (Draft.writing es rest?)).size := by
  have hsize : (Draft.ofEdits (es.map .instruction)).size = Emission.extent es := by
    rw [Draft.ofEdits, Draft.size_run_instructions]
    exact Nat.zero_add _
  cases rest? with
  | none => exact Nat.le_of_eq hsize.symm
  | some rest =>
    rw [← hsize, Draft.writing, Draft.ofEdits, Draft.ofEdits, Draft.run_append]
    exact Draft.size_le_run _ _

theorem length_code (h : Relocated (Draft.ofEdits (Draft.writing es rest?)).finish target? image) :
    image.code.length = Emission.extent es := by
  have hle : Emission.extent es ≤ image.bytes.length :=
    Nat.le_trans (extent_le_size es rest?) (Nat.le_of_eq h.size.symm)
  rw [h.code_eq_take]
  exact List.length_take_of_le hle

/-- **The code of the image** is the encodings of its emissions, one after the other. -/
theorem code_relocated (hsize : (Draft.ofEdits (Draft.writing es rest?)).size < Offset.limit)
    (h : Relocated (Draft.ofEdits (Draft.writing es rest?)).finish target? image) :
    image.code = (Emission.placed 0 es).flatMap fun p =>
      p.2.encode (p.2.displacementAt target? p.1) := by
  rw [h.code_eq_take, ← Emission.take_extent fun p hp => h.slice_of_mem_placed hsize hp,
    List.drop_zero]

end Image.Relocated

end Emplace
