import Emplace.Listing
import Emplace.Proofs.Image.Placement

/-
  The division of code into instructions.

  `lines` reads one instruction after the other, and each one starts where the bytes of the one
  before it end.  So the division of a list of encodings is the list of their instructions
  (`lines_flatMap_bytes`): by induction, a reader that stands at the start of an encoding takes all
  of its bytes and stands at the start of the next one, whatever the bytes are.

  For an image that was written emission by emission this gives the lines, and from them all that a
  listing reports, without reading a byte: system calls, relative operands with their targets, and
  whether the last line leaves the code.
-/

namespace Emplace.Listing

open X64 (Decoder Emission Part)

variable {decode : Decoder}

/-! ## Lines of instructions that follow one another -/

/-- The lines of instructions with their bytes, the first one at `offset`. -/
def linesOf : Nat → List Part → List Line
  | _, [] => []
  | offset, p :: ps =>
      ⟨offset, p.bytes, some p.instruction⟩ :: linesOf (offset + p.bytes.length) ps

theorem linesOf_append (offset : Nat) (ps ps' : List Part) :
    linesOf offset (ps ++ ps') =
      linesOf offset ps ++ linesOf (offset + (ps.flatMap Part.bytes).length) ps' := by
  induction ps generalizing offset with
  | nil => rfl
  | cons p ps ih =>
    show _ :: linesOf (offset + p.bytes.length) (ps ++ ps') = _
    rw [ih, List.flatMap_cons, List.length_append, ← Nat.add_assoc]
    rfl

/-- An encoding at the front of the code is the first line, and the second line starts behind it. -/
theorem lines_append {p : Part} (hpos : 0 < p.bytes.length) {rest : List UInt8}
    (hdecode : decode (p.bytes ++ rest) = .instruction p.instruction p.bytes.length)
    (offset : Nat) :
    lines decode offset (p.bytes ++ rest) =
      ⟨offset, p.bytes, some p.instruction⟩ :: lines decode (offset + p.bytes.length) rest := by
  obtain ⟨bytes, i⟩ := p
  cases bytes with
  | nil => cases hpos
  | cons b bs =>
    have hmore : (X64.Decoded.instruction i (b :: bs).length).length - 1 = bs.length := rfl
    have hstop : offset + 1 + bs.length = offset + (b :: bs).length := by
      rw [List.length_cons]
      omega
    rw [List.cons_append] at hdecode ⊢
    rw [lines]
    simp only [hdecode, hmore, List.take_left, List.drop_left, hstop]
    rfl

/-- **Reading undoes writing**: the lines of encodings are the instructions that were encoded. -/
theorem lines_flatMap_bytes {ps : List Part} (hpos : ∀ p ∈ ps, 0 < p.bytes.length)
    (hdecode : ∀ p ∈ ps, ∀ rest,
      decode (p.bytes ++ rest) = .instruction p.instruction p.bytes.length)
    (offset : Nat) : lines decode offset (ps.flatMap Part.bytes) = linesOf offset ps := by
  induction ps generalizing offset with
  | nil =>
    show lines decode offset [] = []
    rw [lines]
  | cons p ps ih =>
    have hfirst := hdecode p (List.mem_cons_self ..) (ps.flatMap Part.bytes)
    rw [List.flatMap_cons, lines_append (hpos p (List.mem_cons_self ..)) hfirst,
      ih (fun q hq => hpos q (List.mem_cons_of_mem p hq))
        fun q hq => hdecode q (List.mem_cons_of_mem p hq)]
    rfl

/-- Each line of any code starts where the bytes of those before it end. -/
theorem offset_of_lines_eq (hdecode : decode.ReadsBack) {offset : Nat} {code : List UInt8}
    {front back : List Line} {l : Line} (h : lines decode offset code = front ++ l :: back) :
    l.offset = offset + (front.flatMap Line.bytes).length := by
  fun_induction lines decode offset code generalizing front with
  | case1 => exact absurd h.symm (by simp)
  | case2 offset b rest decoded more =>
    rename_i ih
    cases front with
    | nil =>
      obtain ⟨rfl, -⟩ := List.cons.inj h
      rfl
    | cons l' front =>
      obtain ⟨rfl, htail⟩ := List.cons.inj h
      have hmore : (rest.take more).length = more := by
        have hle : decoded.length ≤ (b :: rest).length := hdecode.length_le (b :: rest)
        rw [List.length_cons] at hle
        exact List.length_take_of_le (by omega)
      rw [ih htail, List.flatMap_cons, List.length_append, List.length_cons, hmore]
      omega

theorem bytes_ne_nil_of_mem_lines {offset : Nat} {code : List UInt8} {l : Line}
    (h : l ∈ lines decode offset code) : l.bytes ≠ [] := by
  fun_induction lines decode offset code with
  | case1 => cases h
  | case2 offset b rest decoded more ih =>
    rcases List.mem_cons.mp h with rfl | h
    · exact List.cons_ne_nil _ _
    · exact ih h

/-- A line holds the bytes of the code that lie at its offset. -/
theorem bytes_of_lines_eq (hdecode : decode.ReadsBack) {code : List UInt8}
    {front back : List Line} {l : Line} (h : lines decode 0 code = front ++ l :: back) :
    l.bytes = (code.drop l.offset).take l.bytes.length := by
  have hcode := flatMap_bytes_lines decode 0 code
  rw [h, List.flatMap_append, List.flatMap_cons] at hcode
  rw [offset_of_lines_eq hdecode h, Nat.zero_add, ← hcode, List.drop_left, List.take_left]

/-! ## Lines of emissions -/

/-- The lines of an emission at an offset when the sites were last resolved to these targets. -/
def ofEmission (target? : Site → Option Nat) (p : Nat × Emission) : List Line :=
  linesOf p.1 (p.2.parts (p.2.displacementAt target? p.1))

/-- The offset that an emission at an offset names with its operand: the last target of its site,
    or the end of the instruction as long as there is none. -/
def reference? (target? : Site → Option Nat) (p : Nat × Emission) : Option (Nat × Nat) :=
  match p.2 with
  | .lea _ => some (p.1, (target? (.trailing p.1 7 .rel32)).getD (p.1 + 7))
  | _ => none

theorem linesOf_flatMap_placed (target? : Site → Option Nat) (offset : Nat) (es : List Emission) :
    linesOf offset ((Emission.placed offset es).flatMap fun p =>
      p.2.parts (p.2.displacementAt target? p.1)) =
      (Emission.placed offset es).flatMap (ofEmission target?) := by
  induction es generalizing offset with
  | nil => rfl
  | cons e es ih =>
    rw [Emission.placed, List.flatMap_cons, List.flatMap_cons, linesOf_append,
      ← Emission.encode_eq_flatMap_parts, Emission.length_encode, ih]
    rfl

/-- The system call is the one emission with a system call among its lines. -/
theorem syscalls_ofEmission (target? : Site → Option Nat) (p : Nat × Emission) :
    syscalls (ofEmission target? p) = if p.2 = .syscall then [(p.1, 2)] else [] := by
  obtain ⟨o, e⟩ := p
  cases e <;> rfl

/-- The last line of an emission leaves the code when the emission is a return or a jump. -/
theorem getLast?_ofEmission (target? : Site → Option Nat) (p : Nat × Emission) :
    ∃ l i, (ofEmission target? p).getLast? = some l ∧ l.instruction? = some i ∧
      (i.leaves = true ↔ p.2 = .ret ∨ p.2 = .epilogue ∨ p.2 = .jmpNear ∨ p.2 = .jmpShort) := by
  obtain ⟨o, e⟩ := p
  cases e <;> exact ⟨_, _, rfl, rfl, by simp [X64.Instruction.leaves]⟩

/-- The signed displacement and the end of the instruction give the target back. -/
theorem relativeTargets_ofEmission {target? : Site → Option Nat} {p : Nat × Emission}
    (hstop : p.1 + p.2.length < Offset.limit)
    (htarget : ∀ s, p.2.siteAt? p.1 = some s → ∀ t, target? s = some t → t < Offset.limit) :
    relativeTargets (ofEmission target? p) = (reference? target? p).toList := by
  obtain ⟨o, e⟩ := p
  cases e with
  | lea r =>
    have hdisplaced : X64.displaced (o + 7) ((Emission.lea r).displacementAt target? o) =
        (target? (.trailing o 7 .rel32)).getD (o + 7) := by
      have hd : (Emission.lea r).displacementAt target? o =
          ((target? (.trailing o 7 .rel32)).map
            (Site.trailing o 7 .rel32).displacement).getD 0 := rfl
      rw [hd, X64.displaced]
      cases ht : target? (.trailing o 7 .rel32) with
      | none =>
        have hlt : o + 7 < Offset.limit := hstop
        show (((o + 7 : Nat) + (0 : Int)) % (Offset.limit : Int)).toNat = o + 7
        rw [Int.add_zero, Int.emod_eq_of_lt (by omega) (by omega)]
        rfl
      | some t =>
        have hlt : t < Offset.limit := htarget _ rfl t ht
        show (((o + 7 : Nat) + ((t : Int) - (o + 7 : Nat))) % (Offset.limit : Int)).toNat = t
        have hsum : ((o + 7 : Nat) : Int) + ((t : Int) - (o + 7 : Nat)) = t := by omega
        rw [hsum, Int.emod_eq_of_lt (by omega) (by omega)]
        rfl
    show [(o, X64.displaced (o + 7) _)] = [(o, _)]
    rw [hdisplaced]
  | _ => rfl

/-! ## The listing of an image -/

variable {es : List Emission} {rest? : Option (List UInt8 × List Edit)}
  {target? : Site → Option Nat} {image : Image}

/-- The listing of a relocated image is the one of its emissions. -/
theorem ofImage_relocated (hdecode : decode.ReadsBack)
    (hsize : (Draft.ofEdits (Draft.writing es rest?)).size < Offset.limit)
    (h : Image.Relocated (Draft.ofEdits (Draft.writing es rest?)).finish target? image) :
    ofImage decode image = (Emission.placed 0 es).flatMap (ofEmission target?) := by
  have hcode : image.code = ((Emission.placed 0 es).flatMap fun p =>
      p.2.parts (p.2.displacementAt target? p.1)).flatMap Part.bytes := by
    rw [h.code_relocated hsize, List.flatMap_assoc]
    congr 1
    funext p
    exact Emission.encode_eq_flatMap_parts _ _
  rw [ofImage, hcode, lines_flatMap_bytes, linesOf_flatMap_placed]
  · intro q hq
    obtain ⟨p, hp, hq⟩ := List.mem_flatMap.mp hq
    exact
      (Emission.encodes_of_mem_parts (fun w hw => h.holds_of_mem_placed hsize hp hw) hq).length_pos
  · intro q hq
    obtain ⟨p, hp, hq⟩ := List.mem_flatMap.mp hq
    exact hdecode.decode_append _ _ (fun w hw => h.holds_of_mem_placed hsize hp hw) q hq

theorem syscalls_flatMap (target? : Site → Option Nat) (ps : List (Nat × Emission)) :
    syscalls (ps.flatMap (ofEmission target?)) =
      ps.filterMap fun p => if p.2 = .syscall then some (p.1, 2) else none := by
  induction ps with
  | nil => rfl
  | cons p ps ih =>
    have hhead := syscalls_ofEmission target? p
    rw [syscalls] at ih hhead ⊢
    rw [List.flatMap_cons, List.filter_append, List.map_append, ih, hhead, List.filterMap_cons]
    split
    · rfl
    · rfl

theorem relativeTargets_flatMap {ps : List (Nat × Emission)}
    (h : ∀ p ∈ ps, relativeTargets (ofEmission target? p) = (reference? target? p).toList) :
    relativeTargets (ps.flatMap (ofEmission target?)) = ps.filterMap (reference? target?) := by
  induction ps with
  | nil => rfl
  | cons p ps ih =>
    have hhead := h p (List.mem_cons_self ..)
    have htail := ih fun q hq => h q (List.mem_cons_of_mem p hq)
    rw [relativeTargets] at hhead htail ⊢
    rw [List.flatMap_cons, List.filterMap_append, hhead, htail, List.filterMap_cons]
    cases reference? target? p with
    | none => rfl
    | some r => rfl

/-- Only the last emission decides whether control can go on behind the code. -/
theorem fallsThrough_flatMap (target? : Site → Option Nat) (offset : Nat) (es : List Emission) :
    fallsThrough ((Emission.placed offset es).flatMap (ofEmission target?)) = false ↔
      ∃ e ∈ es.getLast?, e = .ret ∨ e = .epilogue ∨ e = .jmpNear ∨ e = .jmpShort := by
  rcases List.eq_nil_or_concat es with rfl | ⟨init, e, rfl⟩
  · simp [Emission.placed, fallsThrough]
  · rw [List.concat_eq_append]
    obtain ⟨l, i, hlast, hi, hleaves⟩ :=
      getLast?_ofEmission target? (offset + Emission.extent init, e)
    have hls : ((Emission.placed offset (init ++ [e])).flatMap (ofEmission target?)).getLast? =
        some l := by
      rw [Emission.placed_append, List.flatMap_append, Emission.placed, Emission.placed,
        List.flatMap_cons, List.flatMap_nil, List.append_nil, List.getLast?_append, hlast]
      rfl
    have hget : (init ++ [e]).getLast? = some e := List.getLast?_concat
    rw [fallsThrough, hls, hget]
    simp only [hi, Bool.not_eq_false', hleaves, Option.mem_def, Option.some.injEq,
      exists_eq_left']

/-- **A listing gives back what was emitted**, whatever is behind the code and after any run of
    requests for the recorded sites, as long as emitted instructions are read back.  The lines are
    those of the emissions, in order and at their offsets; they divide the code without gap or
    overlap.  The system calls are the emitted ones, each relative operand names the last target of
    its site, and control stays in the code exactly when the last emission is a return or a jump. -/
theorem listing_attemptAll (hdecode : decode.ReadsBack) (es : List Emission)
    (rest? : Option (List UInt8 × List Edit)) (requests : List Request)
    (hsize : (Draft.ofEdits (Draft.writing es rest?)).size < Offset.signedLimit)
    (hrequests : ∀ r ∈ requests,
      r.site ∈ (Draft.ofEdits (Draft.writing es rest?)).finish.pending) :
    let built := (Draft.ofEdits (Draft.writing es rest?)).finish
    let last := fun s => Image.settled? s built requests
    let image := built.attemptAll requests
    let ls := ofImage decode image
    ls = (Emission.placed 0 es).flatMap (ofEmission last) ∧
    ls.flatMap Line.bytes = image.code ∧
    (∀ front l back, ls = front ++ l :: back →
      l.offset = (front.flatMap Line.bytes).length ∧ l.bytes ≠ [] ∧
        l.bytes = (image.code.drop l.offset).take l.bytes.length) ∧
    syscalls ls = (Emission.placed 0 es).filterMap
      (fun p => if p.2 = .syscall then some (p.1, 2) else none) ∧
    relativeTargets ls = (Emission.placed 0 es).filterMap (reference? last) ∧
    (fallsThrough ls = false ↔
      ∃ e ∈ es.getLast?, e = .ret ∨ e = .epilogue ∨ e = .jmpNear ∨ e = .jmpShort) := by
  intro built last image ls
  have hlimit : (Draft.ofEdits (Draft.writing es rest?)).size < Offset.limit :=
    Offset.lt_limit_of_lt_signedLimit hsize
  have hrun : Image.Relocated built last image :=
    Image.Relocated.attemptAll_refl (Draft.laidOut_ofEdits hlimit) hrequests
  have hls : ls = (Emission.placed 0 es).flatMap (ofEmission last) :=
    ofImage_relocated hdecode hlimit hrun
  refine ⟨hls, flatMap_bytes_lines decode 0 image.code, ?_, ?_, ?_, ?_⟩
  · intro front l back h
    have hmem : l ∈ ls := by
      rw [h]
      exact List.mem_append_right _ (List.mem_cons_self ..)
    have hoffset : l.offset = (front.flatMap Line.bytes).length := by
      rw [offset_of_lines_eq hdecode h, Nat.zero_add]
    exact ⟨hoffset, bytes_ne_nil_of_mem_lines hmem, bytes_of_lines_eq hdecode h⟩
  · rw [hls]
    exact syscalls_flatMap last _
  · rw [hls]
    apply relativeTargets_flatMap
    intro p hp
    apply relativeTargets_ofEmission
    · exact Nat.lt_of_le_of_lt (Image.Relocated.stop_le_of_mem_placed hp rest?) hlimit
    · intro s hs t ht
      have hmem := Image.Relocated.mem_pending_of_mem_placed hlimit hp hs
      exact Nat.lt_of_le_of_lt (hrun.reaches s hmem t ht).1 hlimit
  · rw [hls]
    exact fallsThrough_flatMap last 0 es

/-- Neither an immediate value nor data that look like a system call are listed as one. -/
theorem listing_attemptAll_mov_lea_jmp :
    let es : List Emission := [.mov .rsi 0x050F050F, .lea .rsi, .syscall, .jmpShort]
    let rest? : Option (List UInt8 × List Edit) := some ([0x0F, 0x05], [.instruction .syscall])
    let requests : List Request := [⟨.trailing 5 7 .rel32, 0⟩, ⟨.trailing 14 2 .rel8, 12⟩,
      ⟨.trailing 5 7 .rel32, 99⟩, ⟨.trailing 5 7 .rel32, 16⟩]
    let built := (Draft.ofEdits (Draft.writing es rest?)).finish
    let ls := ofImage X64.decode (built.attemptAll requests)
    (Draft.ofEdits (Draft.writing es rest?)).size < Offset.signedLimit ∧
    (∀ r ∈ requests, r.site ∈ built.pending) ∧
    syscalls ls = [(12, 2)] ∧ relativeTargets ls = [(5, 16)] ∧ fallsThrough ls = false := by
  intro es rest? requests built ls
  have hsize : (Draft.ofEdits (Draft.writing es rest?)).size < Offset.signedLimit := by decide
  have hrequests : ∀ r ∈ requests, r.site ∈ built.pending := by decide
  obtain ⟨-, -, -, hsyscalls, htargets, hfalls⟩ :=
    listing_attemptAll X64.decode_readsBack es rest? requests hsize hrequests
  refine ⟨hsize, hrequests, ?_, ?_, ?_⟩
  · exact hsyscalls.trans (by decide)
  · exact htargets.trans (by decide)
  · exact hfalls.mpr ⟨.jmpShort, by decide, by decide⟩

end Emplace.Listing
