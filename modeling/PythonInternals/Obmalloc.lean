import Mathlib.Data.Int.Notation
import Mathlib.Data.List.Nodup
import Mathlib.Logic.Relation
import PythonInternals.Ctypes
import PythonInternals.Foundation.LittleEndian

/-!
# The small-object allocator

A pool of `obmalloc` hands out blocks of one size.  The blocks that were given back are linked
into a list: the header points to the first, and each of them keeps the address of the next in
its own first word.  `alloc` takes the first block of the list, and carves a new one off the pool
when the list is empty; `free` puts a block in front.

`Step` lets the program allocate, give back blocks it owns, and write what it likes into the
blocks it owns.  Whatever it does, the list stays intact and the blocks that are owned do not
overlap; `alloc` gives out a block that nobody owns, and fails only when all the blocks that fit
in the pool are owned (`allocator_safe`).
-/

namespace Obmalloc

open Relation

def ALIGNMENT_SHIFT : ℕ := 4

def POOL_SIZE : ℕ := 16 * 1024

/-- `INDEX2SIZE(I)`. -/
def index2size (i : ℕ) : ℕ := (i + 1) <<< ALIGNMENT_SHIFT

/-- The fields of a `pool_header` that the allocation uses. -/
structure PoolHeader where
  count : ℕ
  freeblock : ℕ
  szidx : ℕ
  nextoffset : ℕ
  maxnextoffset : ℕ

/-- The memory and the header of a pool. -/
structure Pool where
  mem : Memory
  header : PoolHeader

/-- `*(pymem_block **)p`. -/
def deref (mem : Memory) (p : ℕ) : ℕ := LittleEndian.value (mem.stringAt p 8)

/-- Allocate a block of the pool at the address `base`; the pool is full when there is none. -/
def alloc (base : ℕ) (pool : Pool) : Option ℕ × Pool :=
  let header := pool.header
  let p := header.freeblock
  if p ≠ 0 then
    (some p, { pool with
      header := { header with freeblock := deref pool.mem p, count := header.count + 1 } })
  else if header.nextoffset ≤ header.maxnextoffset then
    (some (base + header.nextoffset), { pool with
      header := { header with
        nextoffset := header.nextoffset + index2size header.szidx, count := header.count + 1 } })
  else (none, pool)

/-- Give back the block `p`. -/
def free (p : ℕ) (pool : Pool) : Pool where
  mem := pool.mem.write p (LittleEndian.bytes 8 pool.header.freeblock)
  header := { pool.header with freeblock := p, count := pool.header.count - 1 }

/-- A new pool, with blocks of the given class behind an overhead. -/
def newPool (mem : Memory) (overhead szidx : ℕ) : Pool where
  mem := mem
  header :=
    { count := 0
      freeblock := 0
      szidx := szidx
      nextoffset := overhead
      maxnextoffset := POOL_SIZE - index2size szidx }

/-- A pool, and the blocks that the program owns. -/
structure Config where
  pool : Pool
  live : List ℕ

/-- What the program does with the pool. -/
inductive Step (base : ℕ) : Config → Config → Prop where
  /-- it allocates a block -/
  | alloc {c : Config} {p : ℕ} {pool : Pool} (h : alloc base c.pool = (some p, pool)) :
      Step base c ⟨pool, p :: c.live⟩
  /-- it gives back a block that it owns -/
  | free {c : Config} {p : ℕ} (hp : p ∈ c.live) :
      Step base c ⟨free p c.pool, c.live.erase p⟩
  /-- it writes to a block that it owns -/
  | store {c : Config} {p a : ℕ} (hp : p ∈ c.live) (hlow : p ≤ a)
        (hhigh : a < p + index2size c.pool.header.szidx) (b : UInt8) :
      Step base c ⟨{ c.pool with mem := c.pool.mem.write a [b] }, c.live⟩

/-! ### The list of the free blocks -/

/-- The blocks `bs` are linked, and `head` is the address of the first. -/
def Linked (mem : Memory) : ℕ → List ℕ → Prop
  | head, [] => head = 0
  | head, p :: bs => head = p ∧ p ≠ 0 ∧ Linked mem (deref mem p) bs

theorem Linked.congr {mem mem' : Memory} {head : ℕ} {bs : List ℕ}
    (h : ∀ p ∈ bs, ∀ a, p ≤ a → a < p + 8 → mem a = mem' a) (hlinked : Linked mem head bs) :
  Linked mem' head bs
  := by
  induction bs generalizing head with
  | nil => exact hlinked
  | cons p bs ih =>
      obtain ⟨hfirst, hrest⟩ := List.forall_mem_cons.mp h
      obtain ⟨hhead, hp, hlinked⟩ := hlinked
      use hhead, hp
      rw [deref, ← Memory.stringAt_congr hfirst]
      exact ih hrest hlinked

/-- The word that a block has been given. -/
theorem deref_write (mem : Memory) (p : ℕ) {n : ℕ} (hn : n < 2 ^ 64) :
  deref (mem.write p (LittleEndian.bytes 8 n)) p = n
  := by
  have hbytes := (Memory.holds_write mem p (LittleEndian.bytes 8 n)).stringAt_eq
  rw [LittleEndian.length_bytes] at hbytes
  rw [deref, hbytes, LittleEndian.value_bytes hn]

/-! ### The blocks of a pool -/

/-- The first `n` blocks of a pool. -/
def blocks (base overhead szidx n : ℕ) : List ℕ :=
  (List.range n).map (fun k => base + overhead + k * index2size szidx)

theorem index2size_eq (szidx : ℕ) :
  index2size szidx = (szidx + 1) * 16
  := by
  rw [index2size, ALIGNMENT_SHIFT, Nat.shiftLeft_eq]

/-- Different blocks do not overlap. -/
theorem blocks_disjoint {base overhead szidx n p q : ℕ}
    (hp : p ∈ blocks base overhead szidx n) (hq : q ∈ blocks base overhead szidx n)
    (hne : p ≠ q) :
  p + index2size szidx ≤ q ∨ q + index2size szidx ≤ p
  := by
  obtain ⟨j, -, rfl⟩ := List.mem_map.mp hp
  obtain ⟨k, -, rfl⟩ := List.mem_map.mp hq
  rcases Nat.lt_trichotomy j k with hlt | rfl | hlt
  · left
    have hle := Nat.mul_le_mul_right (index2size szidx) (Nat.succ_le_of_lt hlt)
    rw [Nat.succ_mul] at hle
    omega
  · exact absurd rfl hne
  · right
    have hle := Nat.mul_le_mul_right (index2size szidx) (Nat.succ_le_of_lt hlt)
    rw [Nat.succ_mul] at hle
    omega

theorem blocks_succ (base overhead szidx n : ℕ) :
  blocks base overhead szidx (n + 1)
    = blocks base overhead szidx n ++ [base + overhead + n * index2size szidx]
  := by
  rw [blocks, List.range_succ, List.map_append]
  rfl

theorem nodup_blocks (base overhead szidx n : ℕ) :
  (blocks base overhead szidx n).Nodup
  := by
  apply List.nodup_range.map
  intro j k heq
  have hmul : j * index2size szidx = k * index2size szidx := Nat.add_left_cancel heq
  apply Nat.eq_of_mul_eq_mul_right _ hmul
  rw [index2size_eq]
  omega

/-- The blocks lie behind the overhead, and end where the next would begin. -/
theorem bounds_of_mem_blocks {base overhead szidx n p : ℕ}
    (hp : p ∈ blocks base overhead szidx n) :
  base + overhead ≤ p ∧ p + index2size szidx ≤ base + overhead + n * index2size szidx
  := by
  obtain ⟨k, hk, rfl⟩ := List.mem_map.mp hp
  have hle := Nat.mul_le_mul_right (index2size szidx) (Nat.succ_le_of_lt (List.mem_range.mp hk))
  rw [Nat.succ_mul] at hle
  omega

/-! ### The invariant of a pool -/

section Invariant

variable {base overhead szidx : ℕ}

/-- The blocks that are owned and the blocks `fl` of the list are the first `n` blocks of the
pool. -/
structure Valid (base overhead szidx : ℕ) (fl : List ℕ) (n : ℕ) (c : Config) : Prop where
  linked : Linked c.pool.mem c.pool.header.freeblock fl
  perm : (c.live ++ fl).Perm (blocks base overhead szidx n)
  count : c.pool.header.count = c.live.length
  szidx_eq : c.pool.header.szidx = szidx
  nextoffset : c.pool.header.nextoffset = overhead + n * index2size szidx
  maxnextoffset : c.pool.header.maxnextoffset = POOL_SIZE - index2size szidx
  fits : overhead + n * index2size szidx ≤ POOL_SIZE

namespace Valid

variable {fl : List ℕ} {n : ℕ} {c : Config}

theorem nodup (h : Valid base overhead szidx fl n c) :
  (c.live ++ fl).Nodup
  := h.perm.nodup_iff.mpr (nodup_blocks base overhead szidx n)

theorem length_eq (h : Valid base overhead szidx fl n c) :
  c.live.length + fl.length = n
  := by
  have hlength := h.perm.length_eq
  rwa [List.length_append, blocks, List.length_map, List.length_range] at hlength

theorem mem_blocks (h : Valid base overhead szidx fl n c) {p : ℕ} (hp : p ∈ c.live ++ fl) :
  p ∈ blocks base overhead szidx n
  := h.perm.mem_iff.mp hp

theorem bounds (h : Valid base overhead szidx fl n c) {p : ℕ} (hp : p ∈ c.live ++ fl) :
  base + overhead ≤ p ∧ p + index2size szidx ≤ base + POOL_SIZE
  := by
  have hbounds := bounds_of_mem_blocks (h.mem_blocks hp)
  have hfits := h.fits
  omega

/-- A block of the list that is not owned stays as it is when a block that is owned changes. -/
theorem disjoint_of_mem (h : Valid base overhead szidx fl n c) {p q : ℕ} (hp : p ∈ c.live)
    (hq : q ∈ fl) :
  p + index2size szidx ≤ q ∨ q + index2size szidx ≤ p
  := by
  apply blocks_disjoint (h.mem_blocks (List.mem_append_left fl hp))
    (h.mem_blocks (List.mem_append_right c.live hq))
  rintro rfl
  exact List.disjoint_of_nodup_append h.nodup hp hq

/-- The list ends in the null pointer, also when the header has been given a new block. -/
theorem new (mem : Memory) (hfits : overhead ≤ POOL_SIZE) :
  Valid base overhead szidx [] 0 ⟨newPool mem overhead szidx, []⟩ where
  linked := rfl
  perm := List.Perm.refl []
  count := rfl
  szidx_eq := rfl
  nextoffset := by rw [Nat.zero_mul]; rfl
  maxnextoffset := rfl
  fits := by rwa [Nat.zero_mul]

end Valid

/-- What `alloc` does: it takes the first block of the list, or it carves the next block off the
pool, or all the blocks that fit are owned. -/
theorem Valid.alloc_cases {fl : List ℕ} {n : ℕ} {c : Config}
    (h : Valid base overhead szidx fl n c) (hsize : index2size szidx ≤ POOL_SIZE) :
  (∃ p rest, fl = p :: rest ∧ (alloc base c.pool).1 = some p
      ∧ Valid base overhead szidx rest n ⟨(alloc base c.pool).2, p :: c.live⟩)
    ∨ (fl = [] ∧ (alloc base c.pool).1 = some (base + overhead + n * index2size szidx)
      ∧ Valid base overhead szidx [] (n + 1)
        ⟨(alloc base c.pool).2, (base + overhead + n * index2size szidx) :: c.live⟩)
    ∨ (fl = [] ∧ (alloc base c.pool).1 = none
      ∧ POOL_SIZE < overhead + (n + 1) * index2size szidx)
  := by
  have hlinked := h.linked
  have hnext := h.nextoffset
  have hmax := h.maxnextoffset
  cases fl with
  | cons p rest =>
      left
      obtain ⟨hhead, hp, hrest⟩ := hlinked
      use p, rest
      rw [alloc, if_pos (by rwa [hhead])]
      simp only [hhead, true_and]
      exact
        { linked := hrest
          perm := List.perm_middle.symm.trans h.perm
          count := congrArg (· + 1) h.count
          szidx_eq := h.szidx_eq
          nextoffset := hnext
          maxnextoffset := hmax
          fits := h.fits }
  | nil =>
      right
      replace hlinked : c.pool.header.freeblock = 0 := hlinked
      rw [alloc, if_neg (by rw [hlinked]; simp)]
      by_cases hroom : c.pool.header.nextoffset ≤ c.pool.header.maxnextoffset
      · left
        rw [if_pos hroom]
        rw [hnext, hmax] at hroom
        have hperm := h.perm
        rw [List.append_nil] at hperm
        simp only [hnext, Nat.add_assoc, true_and]
        exact
          { linked := hlinked
            perm := by
              rw [blocks_succ, List.append_nil, Nat.add_assoc]
              exact (hperm.cons _).trans (List.perm_append_singleton _ _).symm
            count := congrArg (· + 1) h.count
            szidx_eq := h.szidx_eq
            nextoffset := by rw [h.szidx_eq, Nat.succ_mul]
            maxnextoffset := hmax
            fits := by rw [Nat.succ_mul]; omega }
      · right
        rw [if_neg hroom]
        rw [hnext, hmax] at hroom
        use rfl, rfl
        rw [Nat.succ_mul]
        omega

/-- The block that `alloc` gives out is not owned. -/
theorem Valid.fresh {fl : List ℕ} {n : ℕ} {c : Config} (h : Valid base overhead szidx fl n c)
    (hsize : index2size szidx ≤ POOL_SIZE) (p : ℕ) (hp : (alloc base c.pool).1 = some p) :
  p ∉ c.live
  := by
  obtain ⟨q, rest, -, hq, hvalid⟩ | ⟨-, hq, hvalid⟩ | ⟨-, hq, -⟩ := h.alloc_cases hsize
  · obtain rfl := Option.some.inj (hp.symm.trans hq)
    exact (List.nodup_cons.mp (List.nodup_append.mp hvalid.nodup).1).1
  · obtain rfl := Option.some.inj (hp.symm.trans hq)
    exact (List.nodup_cons.mp (List.nodup_append.mp hvalid.nodup).1).1
  · rw [hp] at hq
    contradiction

/-- There are no more owned blocks than fit in the pool. -/
theorem Valid.length_le {fl : List ℕ} {n : ℕ} {c : Config} (h : Valid base overhead szidx fl n c)
    (hsize : 0 < index2size szidx) :
  c.live.length ≤ (POOL_SIZE - overhead) / index2size szidx
  := by
  have hfits := h.fits
  have hlength := h.length_eq
  have hle := (Nat.le_div_iff_mul_le hsize).mpr
    (show n * index2size szidx ≤ POOL_SIZE - overhead by omega)
  omega

/-- `alloc` fails just when the blocks that fit in the pool are owned. -/
theorem Valid.alloc_eq_none_iff {fl : List ℕ} {n : ℕ} {c : Config}
    (h : Valid base overhead szidx fl n c) (hsize : index2size szidx ≤ POOL_SIZE) :
  (alloc base c.pool).1 = none ↔ c.live.length = (POOL_SIZE - overhead) / index2size szidx
  := by
  have hpos : 0 < index2size szidx := by
    rw [index2size_eq]
    omega
  have hfits := h.fits
  have hlength := h.length_eq
  constructor
  · intro hnone
    obtain ⟨q, rest, -, hq, -⟩ | ⟨-, hq, -⟩ | ⟨rfl, -, hfull⟩ := h.alloc_cases hsize
    · rw [hnone] at hq
      contradiction
    · rw [hnone] at hq
      contradiction
    · rw [List.length_nil, Nat.add_zero] at hlength
      symm
      apply Nat.div_eq_of_lt_le
      · rw [hlength]
        omega
      · rw [hlength]
        omega
  · intro hlive
    obtain ⟨q, rest, rfl, -, -⟩ | ⟨-, -, hvalid⟩ | ⟨-, hnone, -⟩ := h.alloc_cases hsize
    · have hle := (Nat.le_div_iff_mul_le hpos).mpr
        (show n * index2size szidx ≤ POOL_SIZE - overhead by omega)
      rw [List.length_cons] at hlength
      omega
    · have hle := hvalid.length_le hpos
      rw [List.length_cons] at hle
      omega
    · exact hnone

/-- Giving back a block puts it in front of the list. -/
theorem Valid.free {fl : List ℕ} {n : ℕ} {c : Config} (h : Valid base overhead szidx fl n c)
    (hbase : 0 < base) (haddr : base + POOL_SIZE ≤ 2 ^ 64) {p : ℕ} (hp : p ∈ c.live) :
  Valid base overhead szidx (p :: fl) n ⟨Obmalloc.free p c.pool, c.live.erase p⟩
  := by
  have hsize := index2size_eq szidx
  have hbounds := h.bounds (List.mem_append_left fl hp)
  have hfree : c.pool.header.freeblock < 2 ^ 64 := by
    cases fl with
    | nil =>
        have hnull : c.pool.header.freeblock = 0 := h.linked
        rw [hnull]
        exact Nat.two_pow_pos 64
    | cons q rest =>
        obtain ⟨hhead, -, -⟩ := h.linked
        have hq := h.bounds (List.mem_append_right c.live List.mem_cons_self)
        rw [hhead]
        omega
  exact
    { linked := by
        use rfl, (by omega)
        simp only [Obmalloc.free]
        rw [deref_write _ _ hfree]
        apply h.linked.congr
        intro q hq a hlow hhigh
        have hdisjoint := h.disjoint_of_mem hp hq
        symm
        apply Memory.write_frame
        rw [LittleEndian.length_bytes]
        omega
      perm := by
        apply List.Perm.trans _ h.perm
        apply List.perm_middle.trans
        exact (List.perm_cons_erase hp).symm.append_right fl
      count := by
        rw [List.length_erase_of_mem hp, ← h.count]
        rfl
      szidx_eq := h.szidx_eq
      nextoffset := h.nextoffset
      maxnextoffset := h.maxnextoffset
      fits := h.fits }

/-- Writing to a block that is owned does not touch the list. -/
theorem Valid.store {fl : List ℕ} {n : ℕ} {c : Config} (h : Valid base overhead szidx fl n c)
    {p a : ℕ} (hp : p ∈ c.live) (hlow : p ≤ a) (hhigh : a < p + index2size szidx) (b : UInt8) :
  Valid base overhead szidx fl n ⟨{ c.pool with mem := c.pool.mem.write a [b] }, c.live⟩
  := by
  have hsize := index2size_eq szidx
  exact
    { h with
      linked := by
        apply h.linked.congr
        intro q hq a' hlow' hhigh'
        have hdisjoint := h.disjoint_of_mem hp hq
        symm
        apply Memory.write_frame
        rw [List.length_singleton]
        omega }

/-- Whatever the program does, the pool stays valid. -/
theorem exists_valid (hbase : 0 < base) (haddr : base + POOL_SIZE ≤ 2 ^ 64)
    (hfits : overhead + index2size szidx ≤ POOL_SIZE) {mem : Memory} {c : Config}
    (hreach : ReflTransGen (Step base) ⟨newPool mem overhead szidx, []⟩ c) :
  ∃ fl n, Valid base overhead szidx fl n c
  := by
  induction hreach with
  | refl => exact ⟨[], 0, Valid.new mem (by omega)⟩
  | tail _ hstep ih =>
      obtain ⟨fl, n, h⟩ := ih
      cases hstep with
      | alloc halloc =>
          obtain ⟨q, rest, -, hq, hvalid⟩ | ⟨-, hq, hvalid⟩ | ⟨-, hq, -⟩
            := h.alloc_cases (by omega)
          · rw [halloc] at hq hvalid
            obtain rfl := Option.some.inj hq
            exact ⟨rest, n, hvalid⟩
          · rw [halloc] at hq hvalid
            obtain rfl := Option.some.inj hq
            exact ⟨[], n + 1, hvalid⟩
          · rw [halloc] at hq
            contradiction
      | free hp => exact ⟨_ :: fl, n, h.free hbase haddr hp⟩
      | store hp hlow hhigh b =>
          rw [h.szidx_eq] at hhigh
          exact ⟨fl, n, h.store hp hlow hhigh b⟩

end Invariant

/-- In any run of the program, the owned blocks are different, as many as the header counts, they
lie in the pool and do not overlap; `alloc` gives out a block that is not owned, and none just
when all the blocks that fit in the pool are owned; and giving back a block leaves the bytes of
all the other owned blocks as they are. -/
theorem allocator_safe {base overhead szidx : ℕ} (hbase : 0 < base)
    (haddr : base + POOL_SIZE ≤ 2 ^ 64) (hfits : overhead + index2size szidx ≤ POOL_SIZE)
    {mem : Memory} {c : Config}
    (hreach : ReflTransGen (Step base) ⟨newPool mem overhead szidx, []⟩ c) :
  c.live.Nodup
    ∧ c.pool.header.count = c.live.length
    ∧ (∀ p ∈ c.live, base + overhead ≤ p ∧ p + index2size szidx ≤ base + POOL_SIZE)
    ∧ (∀ p ∈ c.live, ∀ q ∈ c.live, p ≠ q →
        p + index2size szidx ≤ q ∨ q + index2size szidx ≤ p)
    ∧ (∀ p, (alloc base c.pool).1 = some p → p ∉ c.live)
    ∧ ((alloc base c.pool).1 = none
        ↔ c.live.length = (POOL_SIZE - overhead) / index2size szidx)
    ∧ (∀ p ∈ c.live, ∀ q ∈ c.live.erase p, ∀ a, q ≤ a → a < q + index2size szidx →
        (free p c.pool).mem a = c.pool.mem a)
  := by
  obtain ⟨fl, n, h⟩ := exists_valid hbase haddr hfits hreach
  have hnodup := (List.nodup_append.mp h.nodup).1
  use hnodup, h.count
  use fun p hp => h.bounds (List.mem_append_left fl hp)
  use fun p hp q hq => blocks_disjoint (h.mem_blocks (List.mem_append_left fl hp))
    (h.mem_blocks (List.mem_append_left fl hq))
  use h.fresh (by omega), h.alloc_eq_none_iff (by omega)
  intro p hp q hq a hlow hhigh
  obtain ⟨hne, hmem⟩ := hnodup.mem_erase_iff.mp hq
  have hdisjoint := blocks_disjoint (h.mem_blocks (List.mem_append_left fl hp))
    (h.mem_blocks (List.mem_append_left fl hmem)) hne.symm
  have hsize := index2size_eq szidx
  apply Memory.write_frame
  rw [LittleEndian.length_bytes]
  omega

/-- Two blocks are taken of a pool, and the first is given back. -/
theorem reach_free {base p q : ℕ} {pool pool' pool'' : Pool}
    (hp : alloc base pool = (some p, pool')) (hq : alloc base pool' = (some q, pool'')) :
  ReflTransGen (Step base) ⟨pool, []⟩ ⟨free p pool'', [q, p].erase p⟩
  := by
  apply ReflTransGen.head (b := ⟨pool', [p]⟩) (Step.alloc hp)
  apply ReflTransGen.head (b := ⟨pool'', [q, p]⟩) (Step.alloc hq)
  apply ReflTransGen.single
  exact Step.free (c := ⟨pool'', [q, p]⟩) (p := p) (by simp)

/-- The blocks of the pool have 16 bytes. -/
theorem allocator_safe_demo :
  ∃ c, ReflTransGen (Step 4096) ⟨newPool (fun _ => 0) 64 0, []⟩ c ∧ c.live = [4176]
    ∧ (alloc 4096 c.pool).1 = some 4160
    ∧ ((alloc 4096 c.pool).1 = none ↔ c.live.length = 1020)
  := by
  have hreach := @reach_free 4096 4160 4176 (newPool (fun _ => 0) 64 0) _ _ rfl rfl
  have hsafe := allocator_safe (by decide) (by decide) (by decide) hreach
  exact ⟨_, hreach, rfl, rfl, hsafe.2.2.2.2.2.1⟩

/-! ### The classes of the sizes -/

/-- The class of a request, and the size of the block that it gets. -/
def size_class (nbytes : ℤ) : Option ℤ × ℤ :=
  let alignment : ℤ := 16
  if nbytes ≤ 512 then
    let actual := (nbytes + alignment - 1).fdiv alignment * alignment
    (some (actual.fdiv alignment - 1), actual)
  else (none, nbytes)

/-- The number of the blocks of a class in a pool; for the class -1 the division fails. -/
def pool_capacity (class_idx : ℤ) : Option ℤ :=
  let block_size := (class_idx + 1) * 16
  let pool_size : ℤ := 16 * 1024
  let header_size : ℤ := 64
  let usable := pool_size - header_size
  if block_size = 0 then none else some (usable.fdiv block_size)

/-- The class of a request that is not empty, and its size. -/
theorem size_class_eq {nbytes : ℕ} (hpos : 0 < nbytes) (hsmall : nbytes ≤ 512) :
  size_class nbytes
    = (some (((nbytes - 1) / 16 : ℕ) : ℤ), (index2size ((nbytes - 1) / 16) : ℤ))
  := by
  have hfdiv (a : ℤ) : a.fdiv 16 = a / 16 := Int.fdiv_eq_ediv_of_nonneg a (by decide)
  simp only [size_class, hfdiv]
  rw [if_pos (by omega), index2size_eq]
  ext1
  · apply congrArg some
    omega
  · dsimp only
    omega

theorem pool_capacity_eq (szidx : ℕ) :
  pool_capacity szidx = some ((POOL_SIZE - 64) / index2size szidx : ℕ)
  := by
  rw [pool_capacity, if_neg (by omega), index2size_eq, Int.fdiv_eq_ediv_of_nonneg _ (by omega)]
  rfl

/-- A request of 1 to 512 bytes has one of the 32 classes, and its blocks are less than 16 bytes
longer than the request; a pool of the class, behind a header of 64 bytes, never has more owned
blocks than `pool_capacity` says, and it is full just when it has as many. -/
theorem pool_capacity_spec {nbytes : ℕ} (hpos : 0 < nbytes) (hsmall : nbytes ≤ 512) :
  ∃ (class_idx actual : ℕ) (capacity : ℕ),
    size_class nbytes = (some (class_idx : ℤ), (actual : ℤ))
      ∧ pool_capacity class_idx = some (capacity : ℤ)
      ∧ class_idx < 32 ∧ nbytes ≤ actual ∧ actual < nbytes + 16
      ∧ ∀ {base : ℕ} {mem : Memory} {c : Config}, 0 < base → base + POOL_SIZE ≤ 2 ^ 64 →
        ReflTransGen (Step base) ⟨newPool mem 64 class_idx, []⟩ c →
          (∀ p ∈ c.live, ∀ q ∈ c.live, p ≠ q → p + actual ≤ q ∨ q + actual ≤ p)
            ∧ c.live.length ≤ capacity
            ∧ ((alloc base c.pool).1 = none ↔ c.live.length = capacity)
  := by
  use (nbytes - 1) / 16, index2size ((nbytes - 1) / 16)
  use (POOL_SIZE - 64) / index2size ((nbytes - 1) / 16)
  use size_class_eq hpos hsmall, pool_capacity_eq _
  have hsize := index2size_eq ((nbytes - 1) / 16)
  have hpool : POOL_SIZE = 16384 := rfl
  use (by omega), (by omega), (by omega)
  intro base mem c hbase haddr hreach
  have hfits : 64 + index2size ((nbytes - 1) / 16) ≤ POOL_SIZE := by omega
  obtain ⟨fl, n, h⟩ := exists_valid hbase haddr hfits hreach
  constructor
  · intro p hp q hq
    exact blocks_disjoint (h.mem_blocks (List.mem_append_left fl hp))
      (h.mem_blocks (List.mem_append_left fl hq))
  · exact ⟨h.length_le (by omega), h.alloc_eq_none_iff (by omega)⟩

/-- The blocks of the pool are for requests of 100 bytes. -/
theorem pool_capacity_spec_demo :
  size_class 100 = (some 6, 112) ∧ pool_capacity 6 = some 145
    ∧ ∃ c, ReflTransGen (Step 4096) ⟨newPool (fun _ => 0) 64 6, []⟩ c ∧ c.live = [4272]
      ∧ (alloc 4096 c.pool).1 = some 4160 ∧ c.live.length ≤ 145
      ∧ ((alloc 4096 c.pool).1 = none ↔ c.live.length = 145)
  := by
  have hclass : size_class 100 = (some 6, 112) := by decide
  have hcapacity : pool_capacity 6 = some 145 := by decide
  obtain ⟨class_idx, actual, capacity, hclass', hcapacity', -, -, -, hrun⟩
    := pool_capacity_spec (show 0 < 100 by decide) (by decide)
  obtain rfl : class_idx = 6 := by
    have heq : (some (class_idx : ℤ), (actual : ℤ)) = (some 6, 112) := hclass'.symm.trans hclass
    exact Int.ofNat.inj (Option.some.inj (Prod.mk.inj heq).1)
  obtain rfl : capacity = 145 :=
    Int.ofNat.inj (Option.some.inj (hcapacity'.symm.trans hcapacity))
  have hreach := @reach_free 4096 4160 4272 (newPool (fun _ => 0) 64 6) _ _ rfl rfl
  obtain ⟨-, hle, hfull⟩ := hrun (by decide) (by decide) hreach
  exact ⟨hclass, hcapacity, _, hreach, rfl, rfl, hle, hfull⟩

end Obmalloc
