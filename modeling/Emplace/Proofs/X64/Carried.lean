import Emplace.X64.Cpu
import Emplace.Proofs.X64.Encoding

/-
  Code in memory, and what the processor does with it.

  `Memory.Carries a bytes` says that the bytes lie in memory from an address on and may be executed
  there.  It is all that the processor needs to know: wherever it stands at an encoding that is
  carried, it carries out the instruction that was encoded (`Cpu.step_of_carries`), because what it
  fetches behind the encoding cannot change how that is read.

  Addresses wrap around, so `a + i` is sum in the ring of words throughout.
-/

namespace Emplace

/-! ## Sums of addresses -/

namespace Word

theorem add_ofNat (a : Word) (m n : Nat) :
    a + BitVec.ofNat 64 m + BitVec.ofNat 64 n = a + BitVec.ofNat 64 (m + n) := by
  rw [BitVec.add_assoc, ← BitVec.ofNat_add]

/-- The signed distance leads from one address to the other. -/
theorem add_ofInt_sub (a : Word) (stop target : Nat) :
    a + BitVec.ofNat 64 stop + BitVec.ofInt 64 ((target : Int) - stop) =
      a + BitVec.ofNat 64 target := by
  have hsum : (stop : Int) + ((target : Int) - stop) = target := by omega
  rw [← BitVec.ofInt_natCast, ← BitVec.ofInt_natCast, BitVec.add_assoc, ← BitVec.ofInt_add, hsum]

/-- Different offsets lead to different addresses. -/
theorem add_ofNat_ne (a : Word) {m n : Nat} (h : m < n) (hn : n < Offset.limit) :
    a + BitVec.ofNat 64 m ≠ a + BitVec.ofNat 64 n := by
  intro heq
  have heq' := congrArg BitVec.toNat ((BitVec.add_right_inj a).mp heq)
  simp only [Offset.limit] at hn
  simp only [BitVec.toNat_ofNat] at heq'
  omega

/-- Every address lies at its distance from any other. -/
theorem eq_add_sub (a x : Word) : x = a + BitVec.ofNat 64 (x - a).toNat := by
  rw [BitVec.ofNat_toNat, BitVec.setWidth_eq, BitVec.add_comm, BitVec.sub_add_cancel]

/-- An offset is the distance that it leads. -/
theorem toNat_add_sub (a : Word) {i : Nat} (h : i < Offset.limit) :
    (a + BitVec.ofNat 64 i - a).toNat = i := by
  simp only [Offset.limit] at h
  rw [BitVec.add_comm, BitVec.add_sub_cancel, BitVec.toNat_ofNat]
  omega

/-- An address is read back from its bytes. -/
theorem ofNat_decode_encode (v : Word) :
    BitVec.ofNat 64 (LittleEndian.decode (LittleEndian.encode 8 v.toNat)) = v := by
  have hv : v.toNat < LittleEndian.values 8 := v.isLt
  rw [LittleEndian.decode_encode, Nat.mod_eq_of_lt hv, BitVec.ofNat_toNat, BitVec.setWidth_eq]

end Word

namespace X64

/-! ## Bytes in memory -/

namespace Memory

/-- Bytes that can be read one by one are loaded together. -/
theorem load_of_read {m : Memory} {a : Word} {bytes : List UInt8}
    (h : ∀ i b, bytes[i]? = some b → m.read (a + BitVec.ofNat 64 i) = some b) :
    m.load bytes.length a = some bytes := by
  induction bytes generalizing a with
  | nil => rfl
  | cons b bytes ih =>
    have hhead : m.read a = some b := by
      have hread := h 0 b rfl
      rw [BitVec.add_zero] at hread
      exact hread
    have htail : m.load bytes.length (a + 1) = some bytes := by
      apply ih
      intro i b' hb'
      have hread := h (1 + i) b' (by rw [Nat.add_comm]; exact hb')
      rw [← Word.add_ofNat] at hread
      exact hread
    rw [List.length_cons, load_succ, hhead, htail]
    rfl

/-- What was stored is loaded again. -/
theorem load_of_store {m m' : Memory} {a : Word} {bytes : List UInt8}
    (h : m.store a bytes = some m') (hlen : bytes.length < Offset.limit) :
    m'.load bytes.length a = some bytes := by
  apply load_of_read
  intro i b hb
  obtain ⟨hi, -⟩ := List.getElem?_eq_some_iff.mp hb
  rw [read_of_store h, Word.toNat_add_sub a (Nat.lt_trans hi hlen), hb, Option.some_or]

/-- Of two stores side by side, the bytes lie side by side. -/
theorem read_of_stores {m m₁ m₂ : Memory} {a : Word} {front back : List UInt8}
    (hback : m.store (a + BitVec.ofNat 64 front.length) back = some m₁)
    (hfront : m₁.store a front = some m₂) (x : Word) :
    m₂.read x = ((front ++ back)[(x - a).toNat]?).or (m.read x) := by
  rw [read_of_store hfront, read_of_store hback, List.getElem?_append]
  split
  · rename_i h
    rw [List.getElem?_eq_getElem h, Option.some_or, Option.some_or]
  · rename_i h
    have hat : (x - (a + BitVec.ofNat 64 front.length)).toNat = (x - a).toNat - front.length := by
      have hx := x.isLt
      have ha := a.isLt
      simp only [BitVec.toNat_sub, BitVec.toNat_add, BitVec.toNat_ofNat] at h ⊢
      omega
    rw [List.getElem?_eq_none (Nat.le_of_not_lt h), Option.none_or, hat]

/-- Both are loaded again. -/
theorem load_of_stores {m m₁ m₂ : Memory} {a : Word} {front back : List UInt8}
    (hback : m.store (a + BitVec.ofNat 64 front.length) back = some m₁)
    (hfront : m₁.store a front = some m₂) (hlen : (front ++ back).length < Offset.limit) :
    m₂.load front.length a = some front ∧
      m₂.load back.length (a + BitVec.ofNat 64 front.length) = some back := by
  have hread : ∀ i b, (front ++ back)[i]? = some b → m₂.read (a + BitVec.ofNat 64 i) = some b := by
    intro i b hb
    obtain ⟨hi, -⟩ := List.getElem?_eq_some_iff.mp hb
    rw [read_of_stores hback hfront, Word.toNat_add_sub a (Nat.lt_trans hi hlen), hb,
      Option.some_or]
  constructor
  · refine load_of_read fun i b hb => hread i b ?_
    rw [List.getElem?_append_left (List.getElem?_eq_some_iff.mp hb).1, hb]
  · refine load_of_read fun i b hb => ?_
    rw [Word.add_ofNat]
    refine hread _ b ?_
    rw [List.getElem?_append_right (Nat.le_add_right ..), Nat.add_sub_cancel_left, hb]

/-- A store is admitted exactly where every byte of it may be written. -/
theorem admitsStore_iff {m : Memory} {n : Nat} {a : Word} :
    m.admitsStore n a = true ↔ ∀ i, i < n → m.writable (a + BitVec.ofNat 64 i) = true := by
  induction n generalizing a with
  | zero => simp [admitsStore]
  | succ n ih =>
    rw [admitsStore, Bool.and_eq_true, ih, Word.advance_eq]
    constructor
    · rintro ⟨hhead, htail⟩ i hi
      cases i with
      | zero => rwa [BitVec.add_zero]
      | succ i =>
        have h := htail i (by omega)
        rwa [Word.add_ofNat, Nat.add_comm] at h
    · intro h
      have hhead := h 0 (Nat.succ_pos n)
      rw [BitVec.add_zero] at hhead
      refine ⟨hhead, fun i hi => ?_⟩
      rw [Word.add_ofNat, Nat.add_comm]
      exact h (i + 1) (by omega)

/-- Only the permissions count. -/
theorem admitsStore_congr {m m' : Memory} (h : m.writable = m'.writable) (n : Nat) (a : Word) :
    m.admitsStore n a = m'.admitsStore n a := by
  rw [Bool.eq_iff_iff, admitsStore_iff, admitsStore_iff, h]

/-- Where a part of memory maps nothing, what lies behind it decides what may be stored. -/
theorem admitsStore_backedBy {part other : Memory} {n : Nat} {a : Word}
    (h : ∀ i, i < n → part.read (a + BitVec.ofNat 64 i) = none) :
    (part.backedBy other).admitsStore n a = other.admitsStore n a := by
  rw [Bool.eq_iff_iff, admitsStore_iff, admitsStore_iff]
  refine forall₂_congr fun i hi => ?_
  have hwritable : (part.backedBy other).writable (a + BitVec.ofNat 64 i) =
      other.writable (a + BitVec.ofNat 64 i) := by
    show (if (part.read _).isSome then _ else _) = _
    rw [h i hi]
    rfl
  rw [hwritable]

end Memory

/-- The bytes lie in memory from `a` on and may be executed. -/
structure Memory.Carries (m : Memory) (a : Word) (bytes : List UInt8) : Prop where
  read : ∀ i b, bytes[i]? = some b → m.read (a + BitVec.ofNat 64 i) = some b
  executable : ∀ i, i < bytes.length → m.executable (a + BitVec.ofNat 64 i) = true

namespace Memory.Carries

variable {m : Memory} {a : Word} {bytes : List UInt8}

/-- A part of the bytes lies where it starts. -/
theorem slice (h : m.Carries a bytes) (offset n : Nat) :
    m.Carries (a + BitVec.ofNat 64 offset) ((bytes.drop offset).take n) := by
  constructor
  · intro i b hb
    rw [List.getElem?_take] at hb
    split at hb
    · rw [List.getElem?_drop] at hb
      rw [Word.add_ofNat]
      exact h.read _ b hb
    · cases hb
  · intro i hi
    rw [List.length_take, List.length_drop] at hi
    rw [Word.add_ofNat]
    exact h.executable _ (by omega)

/-- Of two parts, the second lies behind the first. -/
theorem append {back : List UInt8} (h : m.Carries a (bytes ++ back)) :
    m.Carries a bytes ∧ m.Carries (a + BitVec.ofNat 64 bytes.length) back := by
  have hfront := h.slice 0 bytes.length
  rw [List.drop_zero, List.take_left, BitVec.add_zero] at hfront
  have hback := h.slice bytes.length back.length
  rw [List.drop_left, List.take_length] at hback
  exact ⟨hfront, hback⟩

/-- The bytes behind the first one lie at the next address. -/
theorem tail {b : UInt8} (h : m.Carries a (b :: bytes)) : m.Carries (a + 1) bytes := by
  have hslice := h.slice 1 bytes.length
  rw [List.drop_succ_cons, List.drop_zero, List.take_length] at hslice
  exact hslice

theorem read_head {b : UInt8} (h : m.Carries a (b :: bytes)) :
    m.read a = some b ∧ m.executable a = true := by
  have hread := h.read 0 b rfl
  have hexec := h.executable 0 (Nat.succ_pos _)
  rw [BitVec.add_zero] at hread hexec
  exact ⟨hread, hexec⟩

/-- Fetching at the bytes finds them in front of whatever lies behind them. -/
theorem fetch (h : m.Carries a bytes) {n : Nat} (hn : bytes.length ≤ n) :
    ∃ rest, m.fetch n a = bytes ++ rest := by
  induction bytes generalizing a n with
  | nil => exact ⟨m.fetch n a, rfl⟩
  | cons b bytes ih =>
    cases n with
    | zero => exact absurd hn (Nat.not_succ_le_zero _)
    | succ n =>
      obtain ⟨rest, hrest⟩ := ih h.tail (Nat.le_of_succ_le_succ hn)
      obtain ⟨hread, hexec⟩ := h.read_head
      refine ⟨rest, ?_⟩
      rw [Memory.fetch, hread, Word.advance_eq]
      show (if m.executable a = true then b :: m.fetch n (a + 1) else []) = _
      rw [if_pos hexec, hrest]
      rfl

end Memory.Carries

/-! ## A part of memory -/

/-- The addresses that `part` maps look the same in `m`. -/
def Memory.Shows (m part : Memory) : Prop :=
  ∀ a b, part.read a = some b → m.read a = some b ∧ m.executable a = part.executable a

namespace Memory.Shows

variable {m m' part : Memory}

theorem carries (h : m.Shows part) {a : Word} {bytes : List UInt8} (hc : part.Carries a bytes) :
    m.Carries a bytes := by
  constructor
  · intro i b hb
    exact (h _ b (hc.read i b hb)).1
  · intro i hi
    have hread := hc.read i bytes[i] (List.getElem?_eq_getElem hi)
    rw [(h _ _ hread).2]
    exact hc.executable i hi

/-- Memory that is seen behind a part does not hide it. -/
theorem backedBy (part other : Memory) : (part.backedBy other).Shows part := by
  intro a b hb
  constructor
  · rw [read_backedBy, hb]
    rfl
  · show (if (part.read a).isSome then part.executable a else other.executable a) = _
    rw [hb]
    rfl

/-- A store beside a part leaves it as it is. -/
theorem store (h : m.Shows part) {top : Word} {new : List UInt8}
    (hstore : m.store top new = some m')
    (hapart : ∀ i, i < new.length → part.read (top + BitVec.ofNat 64 i) = none) :
    m'.Shows part := by
  intro a b hb
  obtain ⟨hread, hexec⟩ := h a b hb
  have hbeside : new.length ≤ (a - top).toNat := by
    apply Nat.le_of_not_lt
    intro hlt
    have hnone := hapart _ hlt
    rw [← Word.eq_add_sub, hb] at hnone
    cases hnone
  constructor
  · rw [read_of_store hstore, List.getElem?_eq_none hbeside, Option.none_or]
    exact hread
  · unfold Memory.store at hstore
    split at hstore
    · obtain rfl := Option.some.inj hstore
      exact hexec
    · cases hstore

end Memory.Shows

/-! ## Steps at carried code -/

namespace Cpu

/-- **A step at an encoding** carries out the instruction that was encoded. -/
theorem step_of_carries {c : Cpu} {bytes : List UInt8} {i : Instruction}
    (hc : c.memory.Carries c.next bytes) (hi : Encodes bytes i) (services : Services) :
    c.step services = c.execute services (c.next + BitVec.ofNat 64 bytes.length) i := by
  obtain ⟨rest, hfetch⟩ := hc.fetch hi.length_le
  rw [step, hfetch, hi.decode_append, ← Word.advance_eq]

/-- A run that is at its goal is over. -/
theorem runUntil_of_next {c : Cpu} {goal : Word} (h : c.next = goal) (services : Services) :
    c.runUntil services goal = some (.arrived, c) := by
  rw [runUntil, if_pos h]

/-- Any other run is what it is after a step. -/
theorem runUntil_of_step {c c' : Cpu} {services : Services} {goal : Word} (hnext : c.next ≠ goal)
    (hstep : c.step services = some c') :
    c.runUntil services goal = c'.runUntil services goal := by
  rw [runUntil, if_neg hnext, hstep]

/-- A run goes on with what was encoded, unless it is at its goal: where nothing lies, no code of
    the part does. -/
theorem runUntil_of_carries {c c' : Cpu} {part : Memory} {bytes : List UInt8} {i : Instruction}
    {services : Services} {goal : Word} (hshows : c.memory.Shows part)
    (hc : part.Carries c.next bytes) (hi : Encodes bytes i) (hgoal : part.read goal = none)
    (hexecute : c.execute services (c.next + BitVec.ofNat 64 bytes.length) i = some c') :
    c.runUntil services goal = c'.runUntil services goal := by
  have hnext : c.next ≠ goal := by
    intro heq
    have hread := hc.read 0 _ (List.getElem?_eq_getElem hi.length_pos)
    rw [BitVec.add_zero, heq, hgoal] at hread
    cases hread
  exact runUntil_of_step hnext (by rw [step_of_carries (hshows.carries hc) hi, hexecute])

/-- What a push stores decides what it leaves. -/
theorem push_of_store {c : Cpu} {v top : Word} {m : Memory}
    (htop : c.get LowRegister.rsp = top + 8)
    (hstore : c.memory.store top (LittleEndian.encode 8 v.toNat) = some m) :
    c.push v = some ({ c with memory := m }.set LowRegister.rsp top) := by
  have hat : c.get LowRegister.rsp - 8 = top := by
    rw [htop, BitVec.add_sub_cancel]
  rw [push, hat, hstore]
  rfl

/-- A pop finds the word that lies on top of the stack. -/
theorem pop_of_load {c : Cpu} {v : Word}
    (h : c.memory.load 8 (c.get LowRegister.rsp) = some (LittleEndian.encode 8 v.toNat)) :
    c.pop = some (v, c.set LowRegister.rsp (c.get LowRegister.rsp + 8)) := by
  rw [pop, h]
  show some (BitVec.ofNat 64 (LittleEndian.decode (LittleEndian.encode 8 v.toNat)), _) = _
  rw [Word.ofNat_decode_encode]

theorem steps_succ (services : Services) (n : Nat) (c : Cpu) :
    c.steps services (n + 1) = (c.step services).bind (steps services n) :=
  rfl

theorem steps_trans {services : Services} {m n : Nat} {c c₁ c' : Cpu}
    (h : c.steps services m = some c₁) (hrest : c₁.steps services n = some c') :
    c.steps services (m + n) = some c' := by
  induction m generalizing c with
  | zero =>
    obtain rfl := Option.some.inj h
    rw [Nat.zero_add]
    exact hrest
  | succ m ih =>
    obtain ⟨c₂, hstep, hm⟩ := Option.bind_eq_some_iff.mp h
    rw [Nat.add_right_comm, steps_succ, hstep]
    exact ih hm

end Cpu

end X64

end Emplace
