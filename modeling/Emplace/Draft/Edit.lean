import Emplace.Draft
import Emplace.X64.Emission

/-
  Edits: every way to add to a draft, as data.

  An edit says which bytes it writes (`Edit.bytes`) and which field it leaves open.  `Draft.apply`
  carries one out and yields what the writer learns from it: an offset, or the site of the open
  field.  `Draft.run` carries out a list of edits; a refused edit leaves the draft as it is.
-/

namespace Emplace

inductive Edit
  | append (bytes : List UInt8)
  | data (bytes : List UInt8)
  | word8 (value : UInt8)
  | word16 (value : UInt16)
  | word32 (value : UInt32)
  | signed32 (value : Int32)
  | word64 (value : UInt64)
  /-- Any bytes followed by an open displacement field. -/
  | field (leading : List UInt8) (width : FieldWidth)
  | instruction (emission : X64.Emission)
  deriving DecidableEq

/-- What carrying out an edit tells the writer. -/
inductive Yield
  | nothing
  /-- The offset at which the bytes were written. -/
  | offset (offset : Nat)
  /-- The site of the field that was left open. -/
  | site (site : Site)
  deriving DecidableEq

namespace Edit

/-- The bytes before the open field; all bytes where there is none. -/
def leading : Edit → List UInt8
  | append bytes => bytes
  | data bytes => bytes
  | word8 v => [v]
  | word16 v => LittleEndian.encode 2 v.toNat
  | word32 v => LittleEndian.encode 4 v.toNat
  | signed32 v => LittleEndian.encodeInt 4 v.toInt
  | word64 v => LittleEndian.encode 8 v.toNat
  | field leading _ => leading
  | instruction e => e.leading

/-- The field that the edit leaves open. -/
def open? : Edit → Option FieldWidth
  | field _ width => some width
  | instruction e => e.field?
  | _ => none

/-- All bytes of the edit, an open field as zeros. -/
def bytes (e : Edit) : List UInt8 :=
  match e.open? with
  | some width => e.leading ++ List.replicate width.bytes 0
  | none => e.leading

end Edit

namespace Draft

/-- Adds the bytes of an edit and records the field that it leaves open. -/
def write (d : Draft) (e : Edit) : Yield × Draft :=
  match e.open? with
  | some width => (.site (d.nextSite e.leading width), d.reserve e.leading width)
  | none => (.nothing, d.append e.leading)

/-- Carries out one edit. -/
def apply (d : Draft) : Edit → Except Error (Yield × Draft)
  | .data bytes => (d.appendData bytes).map fun d' => (.offset d.size, d')
  | .append bytes => .ok (.offset d.size, d.append bytes)
  | e => .ok (d.write e)

/-- The draft after an edit, or the draft itself when the edit is refused. -/
def step (d : Draft) (e : Edit) : Draft :=
  match d.apply e with
  | .ok (_, d') => d'
  | .error _ => d

/-- The draft after a list of edits. -/
def run (d : Draft) (edits : List Edit) : Draft := edits.foldl step d

/-- A list of edits carried out on nothing. -/
def ofEdits (edits : List Edit) : Draft := run empty edits

/-! ## What an edit does to a draft -/

/-- Only a second data segment is refused. -/
theorem apply_eq_error_iff {d : Draft} {e : Edit} {cause : Error} :
    d.apply e = .error cause ↔
      (∃ bytes, e = .data bytes) ∧ d.data.isSome = true ∧ cause = .secondData := by
  cases e with
  | data bytes =>
    unfold apply appendData
    cases d.data <;> simp [Except.map, eq_comm]
  | _ => simp [apply]

theorem bytes_write (d : Draft) (e : Edit) : (d.write e).2.bytes = d.bytes ++ e.bytes := by
  unfold write Edit.bytes
  cases e.open? with
  | none => rfl
  | some width => rfl

/-- An edit adds its bytes at the end and leaves those before as they are. -/
theorem bytes_of_apply {d d' : Draft} {e : Edit} {y : Yield} (h : d.apply e = .ok (y, d')) :
    d'.bytes = d.bytes ++ e.bytes := by
  cases e with
  | append bytes =>
    obtain ⟨-, rfl⟩ := Prod.mk.inj (Except.ok.inj h)
    rfl
  | data bytes =>
    unfold apply appendData at h
    cases hd : d.data with
    | some span => simp [hd, Except.map] at h
    | none =>
      simp only [hd, Except.map, Except.ok.injEq, Prod.mk.injEq] at h
      obtain ⟨-, rfl⟩ := h
      rfl
  | _ => rw [← bytes_write, Except.ok.inj h]

example :
    (ofEdits [.word8 0xB8, .word32 0x01020304, .signed32 (-2)]).bytes
      = [0xB8, 0x04, 0x03, 0x02, 0x01, 0xFE, 0xFF, 0xFF, 0xFF] := by decide

example :
    (ofEdits [.instruction .ret, .data [], .data [1]]).finish = ⟨[0xC3], some ⟨1, 1⟩, []⟩ := by
  decide

end Draft

end Emplace
