import Mathlib.Algebra.Group.Nat.Defs
import Mathlib.Order.Bounds.Defs
import Emplace.Proofs.Region.Loaded

/-
  Rounding up to pages, and what a region is acquired with.

  Memory is mapped in whole pages, so a region gets the least multiple of the page that has room for
  what was asked for, and for one byte at least.  That multiple is not computed by a division: a
  page less one is added, and the low bits are taken away.  This is sound for three reasons.

    * Where the page is a power of two, taking the low bits away is rounding down
      (`Offset.clear_two_pow`).
    * The sum is refused where it is no offset, and the largest multiple that is one lies a whole
      page below the end of the range.  So nothing is refused that could be rounded up, and nothing
      is rounded up to too little (`roundUp?_eq`).
    * No kernel grants a mapping that is no signed word, for there is no place for it
      (`Place.capacity_lt`).

  So a region is acquired just when the exact multiple is an offset and the kernel grants a mapping
  of this many bytes (`acquireIn_fst_eq_error_iff`); `acquire` is the case of the kernel's own pages.
  What fits the size that was asked for can then be stored byte by byte from the base on, with every
  byte inside the mapping (`Blank.stores`).
-/

namespace Emplace

/-! ## The least multiple -/

/-- The least multiple of `page` that is at least `n`. -/
def leastMultiple (page n : Nat) : Nat := (n + (page - 1)) / page * page

theorem dvd_leastMultiple (page n : Nat) : page ∣ leastMultiple page n := Nat.dvd_mul_left ..

theorem le_leastMultiple {page : Nat} (hpage : 0 < page) (n : Nat) : n ≤ leastMultiple page n := by
  have hsplit := Nat.div_add_mod' (n + (page - 1)) page
  have hrest := Nat.mod_lt (n + (page - 1)) hpage
  unfold leastMultiple
  omega

theorem leastMultiple_lt {page : Nat} (hpage : 0 < page) (n : Nat) :
    leastMultiple page n < n + page := by
  have hle := Nat.div_mul_le_self (n + (page - 1)) page
  unfold leastMultiple
  omega

theorem isLeast_leastMultiple {page : Nat} (hpage : 0 < page) (n : Nat) :
    IsLeast {c | page ∣ c ∧ n ≤ c} (leastMultiple page n) := by
  refine ⟨⟨dvd_leastMultiple page n, le_leastMultiple hpage n⟩, ?_⟩
  rintro c ⟨⟨q, rfl⟩, hc⟩
  -- the sum ends before the multiple after that one, so its quotient is no larger
  have hquotient : (n + (page - 1)) / page < q + 1 := by
    rw [Nat.div_lt_iff_lt_mul hpage, Nat.add_mul, Nat.one_mul, Nat.mul_comm]
    omega
  rw [leastMultiple, Nat.mul_comm page]
  exact Nat.mul_le_mul_right page (Nat.le_of_lt_succ hquotient)

/-- Two multiples of a page lie a page apart. -/
theorem add_le_of_dvd {page a b : Nat} (ha : page ∣ a) (hb : page ∣ b) (h : a < b) :
    a + page ≤ b := by
  have hle := Nat.le_of_dvd (Nat.sub_pos_of_lt h) (Nat.dvd_sub hb ha)
  omega

/-! ## Rounding with a mask -/

namespace Offset

/-- A page that is an offset divides the range of offsets into pages. -/
theorem dvd_limit {page : Nat} (hpage : page.isPowerOfTwo) (hlimit : page < limit) :
    page ∣ limit := by
  obtain ⟨k, rfl⟩ := hpage
  have hk : k < 64 := (Nat.pow_lt_pow_iff_right (by decide)).mp hlimit
  exact Nat.pow_dvd_pow 2 (Nat.le_of_lt hk)

/-- Taking the low bits away is rounding down. -/
theorem clear_two_pow {n k : Nat} (hn : n < limit) (hk : 2 ^ k < limit) :
    clear n (2 ^ k - 1) = n / 2 ^ k * 2 ^ k := by
  have hsum := clear_add_and hn (show 2 ^ k - 1 < limit by omega)
  rw [Nat.and_two_pow_sub_one_eq_mod] at hsum
  rw [Nat.div_mul_self_eq_mod_sub_self]
  omega

end Offset

section Rounding

variable {page : Nat} (hpage : page.isPowerOfTwo) (hlimit : page < Offset.limit)
include hpage hlimit

/-- The multiple is an offset just when the sum that it is computed from is one. -/
theorem leastMultiple_lt_limit_iff (n : Nat) :
    leastMultiple page n < Offset.limit ↔ n + page ≤ Offset.limit := by
  have hpos : 0 < page := Nat.pos_of_isPowerOfTwo hpage
  constructor
  · intro h
    have hroom := add_le_of_dvd (dvd_leastMultiple page n) (Offset.dvd_limit hpage hlimit) h
    have hle := le_leastMultiple hpos n
    omega
  · intro h
    exact Nat.lt_of_lt_of_le (leastMultiple_lt hpos n) h

/-- **Rounding up is exact**, and refused just when the exact multiple is no offset. -/
theorem roundUp?_eq (size : Nat) :
    roundUp? page size =
      if leastMultiple page (max size 1) < Offset.limit then some (leastMultiple page (max size 1))
      else none := by
  have hpos : 0 < page := Nat.pos_of_isPowerOfTwo hpage
  have hfits := leastMultiple_lt_limit_iff hpage hlimit (max size 1)
  split
  · rename_i hoffset
    have hroom := hfits.mp hoffset
    refine (roundUp?_eq_some_iff hpos).mpr ⟨hroom, ?_⟩
    -- what is masked is the sum that the multiple is the quotient of
    obtain ⟨k, rfl⟩ := hpage
    exact (Offset.clear_two_pow (by omega) hlimit).symm
  · rename_i hoffset
    rw [Option.eq_none_iff_forall_ne_some]
    intro capacity hround
    exact hoffset (hfits.mpr ((roundUp?_eq_some_iff hpos).mp hround).1)

theorem roundUp?_eq_none_iff (size : Nat) :
    roundUp? page size = none ↔ Offset.limit ≤ leastMultiple page (max size 1) := by
  rw [roundUp?_eq hpage hlimit]
  split
  · rename_i hoffset
    exact ⟨nofun, fun hlong => absurd hoffset (Nat.not_lt.mpr hlong)⟩
  · rename_i hoffset
    exact ⟨fun _ => Nat.le_of_not_lt hoffset, fun _ => rfl⟩

/-- What a size is rounded up to is the exact multiple. -/
theorem eq_leastMultiple_of_roundUp? {size capacity : Nat}
    (h : roundUp? page size = some capacity) :
    capacity = leastMultiple page (max size 1) ∧ capacity < Offset.limit := by
  rw [roundUp?_eq hpage hlimit] at h
  split at h
  · rename_i hoffset
    obtain rfl := Option.some.inj h
    exact ⟨rfl, hoffset⟩
  · cases h

/-- The sizes that cannot be rounded up are the last ones, less than a page from the end. -/
theorem limit_le_leastMultiple_iff (size : Nat) :
    Offset.limit ≤ leastMultiple page (max size 1) ↔ Offset.limit - page < size := by
  rw [← Nat.not_lt, leastMultiple_lt_limit_iff hpage hlimit]
  omega

end Rounding

example : roundUp? pageSize 0 = some 4096 ∧ roundUp? pageSize 4096 = some 4096 ∧
    roundUp? pageSize (Offset.limit - 4096) = some (Offset.limit - 4096) ∧
    roundUp? pageSize (Offset.limit - 4095) = none := by
  decide

/-! ## Storing byte by byte -/

/-- Bytes that fit a mapping are stored one by one from its base on, and lie there with zeros behind
    them. -/
theorem Place.exists_store {capacity : Nat} (place : Place capacity) {bytes : List UInt8}
    (h : bytes.length ≤ capacity) (executable : Bool) :
    ∃ m, (X64.Memory.mapped place.base capacity #[] true executable).store place.base bytes =
        some m ∧
      m.read = X64.Memory.readMapped place.base capacity bytes.toArray := by
  have hadmits : (X64.Memory.mapped place.base capacity #[] true executable).admitsStore
      bytes.length place.base = true := by
    rw [X64.Memory.admitsStore_iff]
    intro i hi
    show (true && X64.Memory.within place.base capacity _) = true
    rw [X64.Memory.within, Region.toNat_base_add place (by omega)]
    simp only [Bool.true_and, Bool.and_eq_true, decide_eq_true_eq]
    omega
  refine ⟨_, if_pos hadmits, ?_⟩
  funext x
  rw [X64.Memory.read_of_store (if_pos hadmits), X64.Memory.read_mapped]
  unfold X64.Memory.readMapped
  split
  · rename_i hwithin
    simp only [X64.Memory.within, Bool.and_eq_true, decide_eq_true_eq] at hwithin
    have hat : (x - place.base).toNat = x.toNat - place.base.toNat :=
      BitVec.toNat_sub_of_le hwithin.1
    simp only [hat, List.getElem?_toArray]
    cases bytes[x.toNat - place.base.toNat]? <;> rfl
  · rename_i hwithin
    simp only [X64.Memory.within, Bool.and_eq_true, decide_eq_true_eq] at hwithin
    have hbeyond : bytes.length ≤ (x - place.base).toNat := by
      have hfits := place.fits
      have hx := x.isLt
      simp only [Offset.signedLimit] at hfits
      rw [BitVec.toNat_sub]
      omega
    rw [List.getElem?_eq_none hbeyond, Option.none_or]

/-- What a mapping holds is all that the processor reads of it. -/
theorem Region.read_memory {r : Region} {pages : Pages} (h : r.mapping.pages? = some pages) :
    r.memory.read =
      X64.Memory.readMapped pages.place.base pages.capacity pages.stored.toArray := by
  rw [memory, h]
  exact X64.Memory.read_mapped ..

namespace Origin

/-- What is stored in an empty region is all that its mapping holds. -/
theorem pages?_store {o : Origin} {kernel : Kernel} {bytes : List UInt8}
    (h : ((o.region .empty).store kernel bytes).answer = .ok ()) :
    ((o.region .empty).store kernel bytes).region.mapping.pages? = some (o.pages bytes) := by
  have hstore : (o.pages []).store bytes = o.pages bytes := by
    simp [Pages.store, pages]
  rw [← hstore]
  obtain ⟨ticket, size, strategy, capacity, place, size_le⟩ := o
  cases strategy with
  | rwx => rfl
  | staged =>
    cases hpermit : kernel.permitExecute ticket with
    | ok u =>
      simp only [Region.store, region, Strategy.mapping, hpermit, Bool.false_eq_true, if_false]
      rfl
    | error errno =>
      simp only [Region.store, region, Strategy.mapping, hpermit, Bool.false_eq_true, if_false,
        reduceCtorEq] at h

/-- Storing in an empty region writes each byte into the mapping, and nothing else. -/
theorem exists_store_empty (o : Origin) {bytes : List UInt8} (h : bytes.length ≤ o.size) :
    ∃ m, (o.region .empty).memory.store (o.region .empty).base bytes = some m ∧
      ∀ kernel : Kernel, ((o.region .empty).store kernel bytes).answer = .ok () →
        ((o.region .empty).store kernel bytes).region.memory.read = m.read := by
  obtain ⟨m, hm, hread⟩ :=
    o.place.exists_store (Nat.le_trans h o.size_le) (o.region .empty).executable
  have hmemory : (o.region .empty).memory =
      X64.Memory.mapped o.place.base o.capacity #[] true (o.region .empty).executable := by
    obtain ⟨ticket, size, strategy, capacity, place, size_le⟩ := o
    cases strategy <;> rfl
  refine ⟨m, ?_, ?_⟩
  · rw [hmemory, o.base_region (by simp)]
    exact hm
  · intro kernel hok
    rw [Region.read_memory (pages?_store hok), hread]
    rfl

end Origin

/-! ## Acquiring -/

namespace Region

/-- **Exactly when no region is acquired.** -/
theorem acquireIn_fst_eq_error_iff {page : Nat} (hpage : page.isPowerOfTwo)
    (hlimit : page < Offset.limit) (kernel : Kernel) (ticket size : Nat) (strategy : Strategy) :
    (∃ e, (acquireIn page kernel ticket size strategy).1 = .error e) ↔
      Offset.limit ≤ leastMultiple page (max size 1) ∨
        ∃ errno, kernel.map ticket strategy (leastMultiple page (max size 1)) = .error errno := by
  rcases acquireIn_cases page kernel ticket size strategy with
    ⟨hround, hacquire⟩ | ⟨capacity, errno, cause, hround, hmap, hacquire⟩ |
    ⟨capacity, place, hround, hmap, hacquire⟩
  · rw [hacquire]
    have hlong := (roundUp?_eq_none_iff hpage hlimit size).mp hround
    exact ⟨fun _ => .inl hlong, fun _ => ⟨_, rfl⟩⟩
  · rw [hacquire]
    obtain ⟨rfl, -⟩ := eq_leastMultiple_of_roundUp? hpage hlimit hround
    exact ⟨fun _ => .inr ⟨errno, hmap⟩, fun _ => ⟨_, rfl⟩⟩
  · rw [hacquire]
    obtain ⟨rfl, hoffset⟩ := eq_leastMultiple_of_roundUp? hpage hlimit hround
    constructor
    · rintro ⟨e, he⟩
      cases he
    · rintro (hlong | ⟨errno, herror⟩)
      · exact absurd hoffset (Nat.not_lt.mpr hlong)
      · rw [hmap] at herror
        cases herror

/-- A refusal names the size as it was asked for. -/
theorem eq_of_acquireIn_fst_error {page : Nat} {kernel : Kernel} {ticket size : Nat}
    {strategy : Strategy} {e : Error}
    (h : (acquireIn page kernel ticket size strategy).1 = .error e) :
    ∃ cause, e = .mappingDenied size cause := by
  rcases acquireIn_cases page kernel ticket size strategy with
    ⟨-, hacquire⟩ | ⟨_, _, cause, -, -, hacquire⟩ | ⟨_, _, -, -, hacquire⟩
  · rw [hacquire] at h
    exact ⟨_, (Except.error.inj h).symm⟩
  · rw [hacquire] at h
    exact ⟨cause, (Except.error.inj h).symm⟩
  · rw [hacquire] at h
    cases h

/-- A region as it is acquired: what is mapped has room for all that was asked for and is less than
    a page longer; all of it is zero, and nothing is loaded.  What is no longer than was asked for
    can be stored from the base on without a byte that lies outside the mapping, and storing it in
    the region does just that. -/
structure Blank (r : Region) (page asked mapped : Nat) : Prop where
  size : r.size = asked
  capacity : r.capacity = mapped
  enough : max asked 1 ≤ mapped
  tight : mapped < max asked 1 + page
  readable : r.readable = List.replicate asked 0
  loaded : r.loaded = false
  stores : ∀ bytes : List UInt8, bytes.length ≤ asked →
    ∃ m, r.memory.store r.base bytes = some m ∧
      ∀ kernel : Kernel, (r.store kernel bytes).answer = .ok () →
        (r.store kernel bytes).region.memory.read = m.read

/-- What is acquired is blank, and mapped in exactly as many bytes as rounding up gives. -/
theorem blank_of_acquireIn {page : Nat} (hpage : page.isPowerOfTwo) (hlimit : page < Offset.limit)
    {kernel : Kernel} {ticket size : Nat} {strategy : Strategy} {r : Region}
    (h : (acquireIn page kernel ticket size strategy).1 = .ok r) :
    r.Blank page size (leastMultiple page (max size 1)) := by
  have hpos : 0 < page := Nat.pos_of_isPowerOfTwo hpage
  rcases acquireIn_cases page kernel ticket size strategy with
    ⟨-, hacquire⟩ | ⟨_, _, _, -, -, hacquire⟩ | ⟨capacity, place, hround, -, hacquire⟩
  · rw [hacquire] at h
    cases h
  · rw [hacquire] at h
    cases h
  · rw [hacquire] at h
    obtain rfl := Except.ok.inj h
    obtain ⟨rfl, -⟩ := eq_leastMultiple_of_roundUp? hpage hlimit hround
    have henough := le_of_roundUp? hpos hround
    have hsize : size ≤ leastMultiple page (max size 1) :=
      Nat.le_trans (Nat.le_max_left ..) henough
    let o : Origin := ⟨ticket, size, strategy, leastMultiple page (max size 1), place, hsize⟩
    show (o.region .empty).Blank page o.size o.capacity
    exact ⟨rfl, o.capacity_region (by simp), henough, lt_of_roundUp? hpos hround,
      o.readable_empty, rfl, fun bytes hbytes => o.exists_store_empty hbytes⟩

/-- **What a size is rounded up to, and what a region of this size is.**  In pages of any power of
    two, the number of bytes that are mapped is the least multiple of the page that has room for the
    size and for one byte at least.  A region is refused just when this multiple is no offset, which
    is so for the last sizes only, or when the kernel refuses to map as many bytes; and the refusal
    names the size as it was asked for.  Otherwise the region is blank. -/
theorem acquire_rounds {page : Nat} (hpage : page.isPowerOfTwo) (hlimit : page < Offset.limit)
    (kernel : Kernel) (ticket size : Nat) (strategy : Strategy) :
    ∃ capacity, IsLeast {c | page ∣ c ∧ max size 1 ≤ c} capacity ∧
      (roundUp? page size = if capacity < Offset.limit then some capacity else none) ∧
      (Offset.limit ≤ capacity ↔ Offset.limit - page < size) ∧
      ((∃ e, (acquireIn page kernel ticket size strategy).1 = .error e) ↔
        Offset.limit ≤ capacity ∨ ∃ errno, kernel.map ticket strategy capacity = .error errno) ∧
      (∀ e, (acquireIn page kernel ticket size strategy).1 = .error e →
        ∃ cause, e = .mappingDenied size cause) ∧
      ∀ r, (acquireIn page kernel ticket size strategy).1 = .ok r → r.Blank page size capacity := by
  have hpos : 0 < page := Nat.pos_of_isPowerOfTwo hpage
  exact ⟨leastMultiple page (max size 1), isLeast_leastMultiple hpos _,
    roundUp?_eq hpage hlimit size, limit_le_leastMultiple_iff hpage hlimit size,
    acquireIn_fst_eq_error_iff hpage hlimit kernel ticket size strategy,
    fun _ => eq_of_acquireIn_fst_error, fun _ => blank_of_acquireIn hpage hlimit⟩

/-- One byte more than a page, and one byte more than can be rounded up. -/
theorem acquire_rounds_byte_more :
    pageSize.isPowerOfTwo ∧ pageSize < Offset.limit ∧
    (∃ r, (acquire Kernel.standard 0 4097 .staged).1 = .ok r ∧ r.Blank pageSize 4097 8192) ∧
    ∃ cause, (acquire Kernel.standard 0 (Offset.limit - 4095) .rwx).1 =
      .error (.mappingDenied (Offset.limit - 4095) cause) := by
  have hpage : pageSize.isPowerOfTwo := ⟨12, rfl⟩
  have hlimit : pageSize < Offset.limit := by decide
  refine ⟨hpage, hlimit, ?_, ?_⟩
  · obtain ⟨capacity, -, hround, -, -, -, hblank⟩ :=
      acquire_rounds hpage hlimit Kernel.standard 0 4097 .staged
    have height : roundUp? pageSize 4097 = some 8192 := by decide
    rw [height] at hround
    split at hround
    · obtain rfl := Option.some.inj hround
      exact ⟨_, rfl, hblank _ rfl⟩
    · cases hround
  · obtain ⟨capacity, -, -, hlast, hrefused, hnamed, -⟩ :=
      acquire_rounds hpage hlimit Kernel.standard 0 (Offset.limit - 4095) .rwx
    obtain ⟨e, he⟩ := hrefused.mpr (.inl (hlast.mpr (by decide)))
    obtain ⟨cause, rfl⟩ := hnamed e he
    exact ⟨cause, he⟩

end Region

end Emplace
