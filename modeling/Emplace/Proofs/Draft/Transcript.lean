import Emplace.Proofs.Draft.Layout
import Emplace.Proofs.X64.Encoding

/-
  The transcript of a draft: what a list of edits makes of nothing, told from the edits alone.

  A draft keeps one run of bytes and two notes of places in it.  All three can be read off the list
  of edits without carrying them out:

  1. **What is taken.**  `Edit.accepted` are the edits without the data segments behind the first
     one.  These are all that is refused, and a refused edit leaves no trace.

  2. **What is written.**  The bytes are those of the accepted edits, one after the other
     (`bytes_run_eq`), and `Edit.Emits` says what the bytes of an edit mean: numbers are read back
     from them, instructions are decoded from them, and an open field is zeros.

  3. **What is noted.**  Each open field is noted with the offset of its instruction
     (`pending_run_sites`), and the data segment with its own (`data_run_eq`).  Both offsets are the
     number of bytes written before, which is also what the writer is told.

  Each of these is a step and then, by induction on the edits with the draft generalized, a run.
  `transcribes_ofEdits` puts them together, with the layout that follows from it.
-/

namespace Emplace

open X64 (Emission Encodes Part)

namespace Edit

/-! ## What is taken -/

def isData : Edit → Bool
  | data _ => true
  | _ => false

/-- The edits that a draft takes, where `taken` says whether it has a data segment already. -/
def accepted (taken : Bool) : List Edit → List Edit
  | [] => []
  | e :: edits =>
      if e.isData && taken then accepted taken edits
      else e :: accepted (taken || e.isData) edits

/-- Without a data segment everything is taken. -/
theorem accepted_eq_self {edits : List Edit} (h : ∀ e ∈ edits, e.isData = false) (taken : Bool) :
    accepted taken edits = edits := by
  induction edits with
  | nil => rfl
  | cons e edits ih =>
    have he : e.isData = false := h e (List.mem_cons_self ..)
    rw [accepted, he, Bool.false_and, Bool.or_false,
      ih fun e' he' => h e' (List.mem_cons_of_mem e he')]
    rfl

/-- A data segment counts for what comes behind it. -/
theorem accepted_append (taken : Bool) (before after : List Edit) :
    accepted taken (before ++ after) =
      accepted taken before ++ accepted (taken || before.any isData) after := by
  induction before generalizing taken with
  | nil => rw [List.nil_append, accepted, List.nil_append, List.any_nil, Bool.or_false]
  | cons e before ih =>
    rw [List.cons_append, accepted, accepted, List.any_cons]
    split
    · rename_i h
      obtain ⟨hdata, rfl⟩ := Bool.and_eq_true_iff.mp h
      rw [ih, Bool.true_or, Bool.true_or]
    · rw [ih, List.cons_append, Bool.or_assoc]

/-! ## What is written -/

/-- The number of bytes of edits that are all taken. -/
def extent : List Edit → Nat
  | [] => 0
  | e :: edits => e.bytes.length + extent edits

theorem length_flatMap_bytes (edits : List Edit) : (edits.flatMap bytes).length = extent edits := by
  induction edits with
  | nil => rfl
  | cons e edits ih => rw [List.flatMap_cons, List.length_append, ih, extent]

/-- What the bytes of an edit mean. -/
inductive Emits : Edit → List UInt8 → Prop
  | append (bytes : List UInt8) : Emits (.append bytes) bytes
  | data (bytes : List UInt8) : Emits (.data bytes) bytes
  | word8 (v : UInt8) : Emits (.word8 v) [v]
  /-- Numbers are written lowest byte first. -/
  | word16 {v : UInt16} {bytes : List UInt8} (length : bytes.length = 2)
      (value : LittleEndian.decode bytes = v.toNat) : Emits (.word16 v) bytes
  | word32 {v : UInt32} {bytes : List UInt8} (length : bytes.length = 4)
      (value : LittleEndian.decode bytes = v.toNat) : Emits (.word32 v) bytes
  /-- Signed ones are written in two's complement. -/
  | signed32 {v : Int32} {bytes : List UInt8} (length : bytes.length = 4)
      (value : LittleEndian.decodeInt bytes = v.toInt) : Emits (.signed32 v) bytes
  | word64 {v : UInt64} {bytes : List UInt8} (length : bytes.length = 8)
      (value : LittleEndian.decode bytes = v.toNat) : Emits (.word64 v) bytes
  /-- An open field is zeros behind the bytes that lead up to it. -/
  | field (leading : List UInt8) (width : FieldWidth) :
      Emits (.field leading width) (leading ++ List.replicate width.bytes 0)
  /-- What has a name is an instruction, or two of them, with no displacement so far. -/
  | instruction {e : Emission} {bytes : List UInt8}
      (parts : bytes = (e.parts 0).flatMap Part.bytes)
      (encodes : ∀ p ∈ e.parts 0, Encodes p.bytes p.instruction) : Emits (.instruction e) bytes

theorem bytes_instruction (e : Emission) : (Edit.instruction e).bytes = e.encode 0 := by
  have hopen : (Edit.instruction e).open? = e.field? := rfl
  rw [bytes, hopen, Emission.encode]
  cases e.field? with
  | none => exact (List.append_nil _).symm
  | some width =>
    show e.leading ++ _ = e.leading ++ LittleEndian.encodeInt width.bytes 0
    rw [LittleEndian.encodeInt_zero]

theorem emits_bytes (e : Edit) : e.Emits e.bytes := by
  cases e with
  | append bytes => exact .append bytes
  | data bytes => exact .data bytes
  | word8 v => exact .word8 v
  | word16 v =>
    refine .word16 (LittleEndian.length_encode 2 v.toNat) ?_
    exact (LittleEndian.decode_encode 2 v.toNat).trans (Nat.mod_eq_of_lt v.toNat_lt)
  | word32 v =>
    refine .word32 (LittleEndian.length_encode 4 v.toNat) ?_
    exact (LittleEndian.decode_encode 4 v.toNat).trans (Nat.mod_eq_of_lt v.toNat_lt)
  | signed32 v =>
    refine .signed32 (LittleEndian.length_encodeInt 4 v.toInt) ?_
    have hmin := v.le_toInt
    have hmax := v.toInt_lt
    exact FieldWidth.decodeInt_of_holds (w := .rel32) ⟨hmin, hmax⟩
  | word64 v =>
    refine .word64 (LittleEndian.length_encode 8 v.toNat) ?_
    exact (LittleEndian.decode_encode 8 v.toNat).trans (Nat.mod_eq_of_lt v.toNat_lt)
  | field leading width => exact .field leading width
  | instruction e =>
    refine .instruction ?_ fun p hp => Emission.encodes_of_mem_parts ?_ hp
    · rw [bytes_instruction, Emission.encode_eq_flatMap_parts]
    · intro w _
      cases w <;> decide

/-! ## What is told and noted -/

/-- What the writer is told of an edit that finds so many bytes, and a data segment or none. -/
def answer (taken : Bool) (offset : Nat) (e : Edit) : Except Error Yield :=
  match e with
  | data _ => if taken then .error .secondData else .ok (.offset offset)
  | append _ => .ok (.offset offset)
  | e =>
      match e.open? with
      | some width => .ok (.site (.trailing offset e.bytes.length width))
      | none => .ok .nothing

/-- The site of an edit that finds so many bytes. -/
def site? (offset : Nat) (e : Edit) : Option Site :=
  e.open?.map fun width => .trailing offset e.bytes.length width

/-- The sites of edits that are all taken, the first of which finds so many bytes. -/
def sites (offset : Nat) : List Edit → List Site
  | [] => []
  | e :: edits => (e.site? offset).toList ++ sites (offset + e.bytes.length) edits

/-- Edits that leave nothing open have no sites. -/
theorem sites_eq_nil {edits : List Edit} (h : ∀ e ∈ edits, e.open? = none) (offset : Nat) :
    sites offset edits = [] := by
  induction edits generalizing offset with
  | nil => rfl
  | cons e edits ih =>
    have he : e.open? = none := h e (List.mem_cons_self ..)
    rw [sites, site?, he, ih fun e' he' => h e' (List.mem_cons_of_mem e he')]
    rfl

/-- The data segment that an edit is when it finds so many bytes. -/
def segment? (offset : Nat) (e : Edit) : Option Span :=
  if e.isData then some ⟨offset, offset + e.bytes.length⟩ else none

/-- The first data segment of edits, the first of which finds so many bytes. -/
def firstSegment? (offset : Nat) : List Edit → Option Span
  | [] => none
  | e :: edits => (e.segment? offset).or (firstSegment? (offset + e.bytes.length) edits)

theorem firstSegment?_eq_none {edits : List Edit} (h : ∀ e ∈ edits, e.isData = false)
    (offset : Nat) : firstSegment? offset edits = none := by
  induction edits generalizing offset with
  | nil => rfl
  | cons e edits ih =>
    have he : e.isData = false := h e (List.mem_cons_self ..)
    rw [firstSegment?, segment?, he, ih fun e' he' => h e' (List.mem_cons_of_mem e he')]
    rfl

/-- The first data segment lies behind the bytes of the edits before it. -/
theorem firstSegment?_append_data {before : List Edit} (h : ∀ e ∈ before, e.isData = false)
    (bytes : List UInt8) (after : List Edit) (offset : Nat) :
    firstSegment? offset (before ++ .data bytes :: after) =
      some ⟨offset + extent before, offset + extent before + bytes.length⟩ := by
  induction before generalizing offset with
  | nil => rfl
  | cons e before ih =>
    have he : e.isData = false := h e (List.mem_cons_self ..)
    rw [List.cons_append, firstSegment?, segment?, he, extent, ← Nat.add_assoc]
    exact ih (fun e' he' => h e' (List.mem_cons_of_mem e he')) _

theorem bytes_of_open {e : Edit} {width : FieldWidth} (h : e.open? = some width) :
    e.bytes = e.leading ++ List.replicate width.bytes 0 := by
  rw [bytes, h]

theorem length_of_open {e : Edit} {width : FieldWidth} (h : e.open? = some width) :
    e.bytes.length = e.leading.length + width.bytes := by
  rw [bytes_of_open h, List.length_append, List.length_replicate]

end Edit

namespace Draft

open Edit (accepted extent sites)

/-! ## One edit -/

theorem data_write (d : Draft) (e : Edit) : (d.write e).2.data = d.data := by
  unfold write
  split
  · rfl
  · rfl

theorem step_eq_write {e : Edit} (h : e.isData = false) (d : Draft) :
    d.step e = (d.write e).2 := by
  cases e with
  | data bytes => cases h
  | _ => rfl

/-- A data segment is noted, unless there is one. -/
theorem data_step (d : Draft) (e : Edit) : (d.step e).data = d.data.or (e.segment? d.size) := by
  cases h : e.isData with
  | false =>
    have hsegment : e.segment? d.size = none := by rw [Edit.segment?, h]; rfl
    rw [step_eq_write h, data_write, hsegment, Option.or_none]
  | true =>
    cases e with
    | data bytes => cases hd : d.data <;> simp [step, apply, appendData, hd, Except.map,
        Edit.segment?, Edit.isData, Edit.bytes, Edit.open?, Edit.leading]
    | _ => cases h

theorem isSome_data_step (d : Draft) (e : Edit) :
    (d.step e).data.isSome = (d.data.isSome || e.isData) := by
  rw [data_step, Option.isSome_or, Edit.segment?]
  cases e.isData <;> rfl

/-- A refused edit leaves no trace. -/
theorem step_of_refused {d : Draft} {e : Edit} (h : (e.isData && d.data.isSome) = true) :
    d.step e = d := by
  obtain ⟨hdata, hsome⟩ := Bool.and_eq_true_iff.mp h
  cases e with
  | data bytes =>
    have happly : d.apply (.data bytes) = .error .secondData :=
      apply_eq_error_iff.mpr ⟨⟨bytes, rfl⟩, hsome, rfl⟩
    rw [step, happly]
  | _ => cases hdata

/-- Every other edit adds its bytes at the end. -/
theorem bytes_step_of_accepted {d : Draft} {e : Edit} (h : (e.isData && d.data.isSome) = false) :
    (d.step e).bytes = d.bytes ++ e.bytes := by
  cases happly : d.apply e with
  | error cause =>
    obtain ⟨⟨bytes, rfl⟩, hsome, -⟩ := apply_eq_error_iff.mp happly
    rw [hsome] at h
    cases h
  | ok told =>
    have hstep : d.step e = told.2 := by rw [step, happly]
    rw [hstep, bytes_of_apply happly]

theorem size_step_of_accepted {d : Draft} {e : Edit} (h : (e.isData && d.data.isSome) = false) :
    (d.step e).size = d.size + e.bytes.length := by
  rw [size, bytes_step_of_accepted h, List.length_append]
  rfl

/-- The writer is told where the bytes went. -/
theorem apply_eq_answer (d : Draft) (e : Edit) :
    (d.apply e).map Prod.fst = e.answer d.data.isSome d.size := by
  cases e with
  | data bytes =>
    unfold apply appendData Edit.answer
    cases d.data with
    | none => rfl
    | some span => rfl
  | append bytes => rfl
  | _ =>
    show (Except.ok (d.write _).1 : Except Error Yield) = _
    unfold write Edit.answer
    split
    · rename_i width hopen
      simp only [hopen, Edit.length_of_open hopen]
      rfl
    · rename_i hopen
      simp only [hopen]

theorem site?_eq (d : Draft) (e : Edit) : d.site? e = e.site? d.size := by
  unfold site? Edit.site?
  cases ho : e.open? with
  | none => rfl
  | some width =>
    rw [Option.map_some, Option.map_some, Edit.length_of_open ho]
    rfl

/-! ## Runs -/

/-- **The bytes of a run** are those of the edits that are taken. -/
theorem bytes_run_eq (d : Draft) (edits : List Edit) :
    (d.run edits).bytes = d.bytes ++ (accepted d.data.isSome edits).flatMap Edit.bytes := by
  induction edits generalizing d with
  | nil => exact (List.append_nil _).symm
  | cons e edits ih =>
    rw [run_cons, ih, accepted, isSome_data_step]
    split
    · rename_i h
      rw [step_of_refused h, (Bool.and_eq_true_iff.mp h).2, Bool.true_or]
    · rename_i h
      rw [bytes_step_of_accepted (Bool.eq_false_iff.mpr h), List.flatMap_cons, List.append_assoc]

/-- **The sites of a run** lie where the edits that leave them open were written. -/
theorem pending_run_sites (d : Draft) (edits : List Edit) :
    (d.run edits).pending = d.pending ++ sites d.size (accepted d.data.isSome edits) := by
  induction edits generalizing d with
  | nil => exact (List.append_nil _).symm
  | cons e edits ih =>
    rw [run_cons, ih, accepted, isSome_data_step]
    split
    · rename_i h
      rw [step_of_refused h, (Bool.and_eq_true_iff.mp h).2, Bool.true_or]
    · rename_i h
      rw [size_step_of_accepted (Bool.eq_false_iff.mpr h), pending_step, site?_eq, sites,
        List.append_assoc]

/-- **The data segment of a run** is the one that there was, or else the first one written. -/
theorem data_run_eq (d : Draft) (edits : List Edit) :
    (d.run edits).data = d.data.or (Edit.firstSegment? d.size edits) := by
  induction edits generalizing d with
  | nil => exact (Option.or_none).symm
  | cons e edits ih =>
    rw [run_cons]
    cases h : e.isData && d.data.isSome with
    | false => rw [ih, data_step, size_step_of_accepted h, Option.or_assoc, Edit.firstSegment?]
    | true =>
      -- there is a segment already, and nothing that comes later is noted
      rw [step_of_refused h, ih]
      obtain ⟨span, hspan⟩ := Option.isSome_iff_exists.mp (Bool.and_eq_true_iff.mp h).2
      rw [hspan, Option.some_or, Option.some_or]

/-! ## The transcript -/

section

variable (before : List Edit) (e : Edit) (after : List Edit)

theorem size_ofEdits (edits : List Edit) :
    (ofEdits edits).size = extent (accepted false edits) := by
  have hbytes := bytes_run_eq empty edits
  rw [ofEdits, size, hbytes]
  exact Edit.length_flatMap_bytes _

theorem isSome_data_ofEdits (edits : List Edit) :
    (ofEdits edits).data.isSome = edits.any Edit.isData := by
  have hrun : ∀ d : Draft, (d.run edits).data.isSome = (d.data.isSome || edits.any Edit.isData) := by
    induction edits with
    | nil => exact fun d => (Bool.or_false _).symm
    | cons e edits ih =>
      intro d
      rw [run_cons, ih, isSome_data_step, List.any_cons, Bool.or_assoc]
  exact hrun empty

/-- One edit among others: what the writer is told of it, and what it leaves. -/
structure Entry : Prop where
  /-- The offset that is told is the number of bytes written before. -/
  answer : ((ofEdits before).apply e).map Prod.fst =
    e.answer (before.any Edit.isData) (extent (accepted false before))
  /-- These bytes are as they were. -/
  earlier : (ofEdits (before ++ e :: after)).bytes.take (extent (accepted false before)) =
    (ofEdits before).bytes
  /-- Those of the edit follow them. -/
  written : (e.isData && before.any Edit.isData) = false →
    ((ofEdits (before ++ e :: after)).bytes.drop (extent (accepted false before))).take
      e.bytes.length = e.bytes
  /-- A second data segment might as well not have been asked for. -/
  refused : (e.isData && before.any Edit.isData) = true →
    ofEdits (before ++ e :: after) = ofEdits (before ++ after)

theorem entry : Entry before e after := by
  have hsome := isSome_data_ofEdits before
  have hsize := size_ofEdits before
  have hrun : ofEdits (before ++ e :: after) = ((ofEdits before).step e).run after :=
    run_append empty before (e :: after)
  obtain ⟨more, hmore⟩ := bytes_run ((ofEdits before).step e) after
  constructor
  · rw [apply_eq_answer, hsome, hsize]
  · obtain ⟨added, hadded⟩ := bytes_step (ofEdits before) e
    rw [hrun, hmore, hadded, ← hsize, List.append_assoc]
    exact List.take_left
  · intro htaken
    rw [← hsome] at htaken
    rw [hrun, hmore, bytes_step_of_accepted htaken, ← hsize, List.append_assoc]
    show (((ofEdits before).bytes ++ (e.bytes ++ more)).drop (ofEdits before).bytes.length).take _ = _
    rw [List.drop_left, List.take_left]
  · intro hrefused
    rw [← hsome] at hrefused
    rw [hrun, step_of_refused hrefused]
    exact (run_append empty before after).symm

end

/-- The draft is what these edits make of nothing. -/
structure Transcribes (d : Draft) (edits : List Edit) : Prop where
  bytes : d.bytes = (accepted false edits).flatMap Edit.bytes
  emits : ∀ e ∈ edits, e.Emits e.bytes
  entries : ∀ before e after, edits = before ++ e :: after → Entry before e after
  pending : d.pending = sites 0 (accepted false edits)
  /-- Without a data segment everything is code. -/
  whole : (∀ e ∈ edits, e.isData = false) → d.data = none ∧ d.finish.code = d.bytes
  /-- The first data segment is the only one, and the code is what was written before it. -/
  divided : ∀ before bytes after, edits = before ++ .data bytes :: after →
    (∀ e ∈ before, e.isData = false) →
      d.data = some ⟨extent before, extent before + bytes.length⟩ ∧
      d.finish.code = before.flatMap Edit.bytes ∧ d.finish.dataBytes = bytes
  finish : d.finish.bytes = d.bytes ∧ d.finish.data = d.data ∧ d.finish.pending = d.pending
  /-- The sites go upwards and lie apart from each other and from the data, as long as every offset
      is one of the machine. -/
  laidOut : d.size < Offset.limit →
    d.finish.LaidOut ∧ d.pending.Pairwise fun s s' => s.start < s'.start

/-- Sites that follow one another start one after the other, for none of them is empty. -/
theorem start_lt_of_laidOut {d : Draft} (h : d.finish.LaidOut) :
    d.pending.Pairwise fun s s' => s.start < s'.start := by
  refine List.Pairwise.imp_of_mem ?_ h.ordered
  intro s s' hs _ hle
  have hfield := (h.fits s hs).field_add
  have hstart := (h.fits s hs).start_le
  have hwidth := s.width.bytes_pos
  omega

/-- **What a draft has grown to** can be read off the edits. -/
theorem transcribes_ofEdits (edits : List Edit) : (ofEdits edits).Transcribes edits := by
  have hbytes : (ofEdits edits).bytes = (accepted false edits).flatMap Edit.bytes :=
    bytes_run_eq empty edits
  have hdata : (ofEdits edits).data = Edit.firstSegment? 0 edits := data_run_eq empty edits
  refine ⟨hbytes, fun e _ => e.emits_bytes, ?_, pending_run_sites empty edits, ?_, ?_,
    ⟨rfl, rfl, rfl⟩, ?_⟩
  · rintro before e after rfl
    exact entry before e after
  · intro hnone
    rw [Edit.firstSegment?_eq_none hnone] at hdata
    refine ⟨hdata, ?_⟩
    simp only [Image.code, Draft.finish, hdata]
  · rintro before bytes after rfl hbefore
    rw [Edit.firstSegment?_append_data hbefore, Nat.zero_add] at hdata
    have hany : before.any Edit.isData = false :=
      List.any_eq_false.mpr fun e he => Bool.eq_false_iff.mp (hbefore e he)
    have hsplit : (ofEdits (before ++ .data bytes :: after)).bytes =
        before.flatMap Edit.bytes ++ (bytes ++ (accepted true after).flatMap Edit.bytes) := by
      rw [hbytes, Edit.accepted_append, Edit.accepted_eq_self hbefore, List.flatMap_append, hany]
      rfl
    have hextent : (before.flatMap Edit.bytes).length = extent before :=
      Edit.length_flatMap_bytes before
    refine ⟨hdata, ?_, ?_⟩
    · simp only [Image.code, Draft.finish, hdata]
      rw [hsplit, ← hextent, List.take_left]
    · simp only [Image.dataBytes, Draft.finish, hdata]
      rw [hsplit, ← hextent, List.drop_left, Nat.add_sub_cancel_left, List.take_left]
  · intro hsize
    have hlaid := laidOut_ofEdits hsize
    exact ⟨hlaid, start_lt_of_laidOut hlaid⟩

end Draft

end Emplace
