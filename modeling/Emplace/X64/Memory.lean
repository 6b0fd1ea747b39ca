import Std.Data.TreeMap
import Emplace.Offset

/-
  Memory as the processor sees it.

  Every address either holds a byte that can be read or is not mapped; some may also be written and
  from some instructions may be fetched.  Addresses wrap around.  `load` and `store` work on runs of
  bytes and fail as a whole.  What a memory holds at first is a function of the address; what was
  stored since is kept in a tree, so that a long run stays fast.  `Memory.read` is the view of both.

  Main statements: `load_succ` (a run is its first byte and the rest of it) and `read_of_store`
  (what a store does to each address).
-/

namespace Emplace.X64

structure Memory where
  /-- The byte at an address before anything is stored, where one is mapped. -/
  initial : Word → Option UInt8
  writable : Word → Bool
  executable : Word → Bool
  /-- What was stored, by address. -/
  stored : Std.TreeMap Nat UInt8

namespace Memory

/-- The byte at an address, where one is mapped. -/
def read (m : Memory) (a : Word) : Option UInt8 := m.stored[a.toNat]?.or (m.initial a)

/-- Reads upwards onto a list that is kept in reverse. -/
def loadOnto (m : Memory) (read : List UInt8) : Nat → Word → Option (List UInt8)
  | 0, _ => some read.reverse
  | n + 1, a =>
      match m.read a with
      | some b => loadOnto m (b :: read) n (a.advance 1)
      | none => none

/-- The `n` bytes from an address on. -/
def load (m : Memory) (n : Nat) (a : Word) : Option (List UInt8) := m.loadOnto [] n a

/-- Whether each of `n` addresses may be written. -/
def admitsStore (m : Memory) : Nat → Word → Bool
  | 0, _ => true
  | n + 1, a => m.writable a && m.admitsStore n (a.advance 1)

/-- The tree with bytes put in from an address on. -/
def storeOnto (stored : Std.TreeMap Nat UInt8) (a : Word) : List UInt8 → Std.TreeMap Nat UInt8
  | [] => stored
  | b :: bytes => (storeOnto stored (a.advance 1) bytes).insert a.toNat b

/-- The memory with bytes written from an address on; every one of them must be writable. -/
def store (m : Memory) (a : Word) (bytes : List UInt8) : Option Memory :=
  if m.admitsStore bytes.length a then some { m with stored := storeOnto m.stored a bytes }
  else none

/-- Up to `n` bytes that can be fetched as instructions from an address on. -/
def fetch (m : Memory) : Nat → Word → List UInt8
  | 0, _ => []
  | n + 1, a =>
      match m.read a with
      | some b => if m.executable a then b :: m.fetch n (a.advance 1) else []
      | none => []

/-- Where `m` maps nothing, `other` is seen. -/
def backedBy (m other : Memory) : Memory where
  initial a := (m.read a).or (other.read a)
  writable a := if (m.read a).isSome then m.writable a else other.writable a
  executable a := if (m.read a).isSome then m.executable a else other.executable a
  stored := ∅

/-- Whether an address is one of the `capacity` addresses from `base` on. -/
def within (base : Word) (capacity : Nat) (a : Word) : Bool :=
  base.toNat ≤ a.toNat && a.toNat < base.toNat + capacity

/-- The byte at one of `capacity` mapped addresses: one of those given, or zero behind them. -/
def readMapped (base : Word) (capacity : Nat) (bytes : Array UInt8) (a : Word) : Option UInt8 :=
  if within base capacity a then some (bytes[a.toNat - base.toNat]?.getD 0) else none

/-- `capacity` mapped addresses from `base` on, the first of which hold the given bytes. -/
def mapped (base : Word) (capacity : Nat) (bytes : Array UInt8) (writable executable : Bool) :
    Memory where
  initial := readMapped base capacity bytes
  writable a := writable && within base capacity a
  executable a := executable && within base capacity a
  stored := ∅

@[simp] theorem read_mapped (base : Word) (capacity : Nat) (bytes : Array UInt8)
    (writable executable : Bool) :
    (mapped base capacity bytes writable executable).read = readMapped base capacity bytes := by
  funext a
  simp [read, mapped]

@[simp] theorem read_backedBy (m other : Memory) (a : Word) :
    (m.backedBy other).read a = (m.read a).or (other.read a) := by
  simp [read, backedBy]

/-! ## Runs of bytes -/

theorem loadOnto_eq (m : Memory) (read : List UInt8) (n : Nat) (a : Word) :
    m.loadOnto read n a = (m.load n a).map (read.reverse ++ ·) := by
  unfold load
  induction n generalizing read a with
  | zero => simp [loadOnto]
  | succ n ih =>
    simp only [loadOnto]
    cases m.read a with
    | none => rfl
    | some b =>
      simp only
      rw [ih (b :: read), ih [b]]
      cases m.loadOnto [] n (a.advance 1) <;> simp

@[simp] theorem load_zero (m : Memory) (a : Word) : m.load 0 a = some [] := rfl

theorem load_succ (m : Memory) (n : Nat) (a : Word) :
    m.load (n + 1) a = (m.read a).bind fun b => (m.load n (a + 1)).map (b :: ·) := by
  rw [load, loadOnto, Word.advance_eq]
  cases m.read a with
  | none => rfl
  | some b => simp [loadOnto_eq m [b]]

theorem length_of_load {m : Memory} {n : Nat} {a : Word} {bytes : List UInt8}
    (h : m.load n a = some bytes) : bytes.length = n := by
  induction n generalizing a bytes with
  | zero =>
    obtain rfl := Option.some.inj h
    rfl
  | succ n ih =>
    rw [load_succ] at h
    obtain ⟨b, -, h⟩ := Option.bind_eq_some_iff.mp h
    obtain ⟨rest, hrest, rfl⟩ := Option.map_eq_some_iff.mp h
    rw [List.length_cons, ih hrest]

theorem getElem?_storeOnto (stored : Std.TreeMap Nat UInt8) (a x : Word) (bytes : List UInt8) :
    (storeOnto stored a bytes)[x.toNat]? = (bytes[(x - a).toNat]?).or stored[x.toNat]? := by
  induction bytes generalizing a with
  | nil => simp [storeOnto]
  | cons b bytes ih =>
    rw [storeOnto, Std.TreeMap.getElem?_insert, ih, Word.advance_eq]
    by_cases h : x = a
    · subst h
      simp
    · have hne : a.toNat ≠ x.toNat := fun he => h (BitVec.eq_of_toNat_eq he.symm)
      have hs : (x - a).toNat = (x - (a + BitVec.ofNat 64 1)).toNat + 1 := by
        have ha := a.isLt
        have hx := x.isLt
        simp only [BitVec.toNat_sub, BitVec.toNat_add, BitVec.toNat_ofNat]
        omega
      simp [hs, hne]

theorem read_of_store {m m' : Memory} {a : Word} {bytes : List UInt8}
    (h : m.store a bytes = some m') (x : Word) :
    m'.read x = (bytes[(x - a).toNat]?).or (m.read x) := by
  unfold store at h
  split at h
  · obtain rfl := Option.some.inj h
    simp [read, getElem?_storeOnto, Option.or_assoc]
  · cases h

end Memory

end Emplace.X64
