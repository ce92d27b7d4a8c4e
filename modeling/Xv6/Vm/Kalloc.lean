/-
kalloc.c over physical memory. RAM is a page of bytes per page frame, keyed by the
frame's address; the free list is threaded through the first word of each free page,
as the allocator threads it. `kalloc` may be made to fail at any call: `fails n` says
whether the n-th call from now does. A kernel access outside RAM is a kernel page
fault, whose handler panics.

`world K` reads assertions in such a memory: the pages of [PGROUNDUP(end), PHYSTOP) are
all the locations there are, and the free list is the reserve. So a triple says where
every page went.
-/
import Xv6.Lib.Buffer
import Xv6.Lib.Triple
import Xv6.Vm.Riscv

namespace Xv6

open Lib Lib.Own

/-- A page frame's bytes. -/
abbrev Page := Buffer PGSIZE

/-- The addresses kernel.ld fixes: the first one after the kernel, and the trampoline page inside it. -/
structure Layout where
  kend : Nat
  trampoline : Nat
  le_kend : KERNBASE ≤ kend
  kend_le : kend ≤ PHYSTOP
  trampoline_lt : trampoline < kend

structure Mem where
  layout : Layout
  ram : Nat → Page
  freelist : Nat
  fails : Nat → Bool

namespace Mem

/-- The same memory, with other allocations to be refused from now on. -/
def withFails (m : Mem) (fails : Nat → Bool) : Mem := { m with fails }

/-! ## Memory accesses -/

def access (a : Nat) : Code Mem Unit :=
  if KERNBASE ≤ a ∧ a < PHYSTOP then pure () else Code.panic "kerneltrap"

/-- Read something from the page around `a`. -/
def readPage {α : Type} (a : Nat) (f : Page → α) : Code Mem α := do
  access a
  return f ((← get).ram (PGROUNDDOWN a))

/-- Change something in the page around `a`. -/
def modifyPage (a : Nat) (f : Page → Page) : Code Mem Unit := do
  access a
  modify fun s => { s with ram := Function.update s.ram (PGROUNDDOWN a) (f (s.ram (PGROUNDDOWN a))) }

/-- `*(uintN *)a` for an integer of `n` bytes. -/
def load (a n : Nat) : Code Mem Nat := readPage a fun c => c.getLE (a % PGSIZE) n

def store (a n v : Nat) : Code Mem Unit := modifyPage a fun c => c.putLE (a % PGSIZE) n v

/-- memmove out of a page into a kernel buffer. -/
def loadBytes (a n : Nat) : Code Mem (List UInt8) := readPage a fun c => c.read (a % PGSIZE) n

/-- memmove from a kernel buffer into a page. -/
def storeBytes (a : Nat) (data : List UInt8) : Code Mem Unit := modifyPage a fun c => c.write (a % PGSIZE) data

/-- memset(pa, x, PGSIZE) -/
def memset (pa : Nat) (x : UInt8) : Code Mem Unit := modifyPage pa fun _ => Buffer.fill x

/-- memmove(dst, src, PGSIZE) -/
def copyPage (dst src : Nat) : Code Mem Unit := do
  let c ← readPage src id
  modifyPage dst fun _ => c

/-! ## kalloc.c -/

def kfree (pa : Nat) : Code Mem Unit := do
  if pa % PGSIZE ≠ 0 ∨ pa < (← get).layout.kend ∨ pa ≥ PHYSTOP then Code.panic "kfree"
  else
    -- Fill with junk to catch dangling refs.
    memset pa 1
    store pa 8 (← get).freelist
    modify fun s => { s with freelist := pa }

/-- Whether the environment lets this allocation go through. -/
def refused : Code Mem Bool := do
  let s ← get
  set { s with fails := fun n => s.fails (n + 1) }
  return s.fails 0

def kalloc : Code Mem Nat := do
  if ← refused then return 0
  let r := (← get).freelist
  if r = 0 then return 0
  let next ← load r 8
  modify fun s => { s with freelist := next }
  memset r 5
  return r

end Mem

/-! ## Memory as a world of pages -/

/-- The pages of [PGROUNDUP(end), PHYSTOP). -/
def Layout.pages (K : Layout) : List Nat :=
  (List.range ((PHYSTOP - PGROUNDUP K.kend) / PGSIZE)).map fun i => PGROUNDUP K.kend + i * PGSIZE

theorem Layout.mem_pages {K : Layout} {pg : Nat} : pg ∈ K.pages ↔ pg % PGSIZE = 0 ∧ K.kend ≤ pg ∧ pg < PHYSTOP := by
  have h1 := K.kend_le
  have h2 : PHYSTOP = 2281701376 := rfl
  have h3 : PGROUNDUP K.kend = (K.kend + 4095) / 4096 * 4096 := by
    rw [PGROUNDUP_eq (by simp only [PGSIZE]; omega)]
    rfl
  simp only [Layout.pages, List.mem_map, List.mem_range, h3, show PGSIZE = 4096 from rfl]
  constructor
  · rintro ⟨i, hi, rfl⟩
    omega
  · rintro ⟨ha, hl, hr⟩
    exact ⟨(pg - (K.kend + 4095) / 4096 * 4096) / 4096, by omega, by omega⟩

theorem Layout.nodup_pages (K : Layout) : K.pages.Nodup := by
  refine List.Nodup.map (fun i j h => ?_) List.nodup_range
  simp only [show PGSIZE = 4096 from rfl] at h
  omega

/-- The free list from `head`: each free page's first word is the next one's address. -/
def freeChain : Nat → List Nat → Own Nat Page
  | head, [] => fact (head = 0)
  | head, pg :: l => fact (head = pg) + ex fun c : Page => cell pg c + freeChain (c.getLE 0 8) l

/-- Physical memory with its free list, for the kernel laid out as `K`. -/
def world (K : Layout) : World Mem Nat Page where
  mem s := s.ram
  locs := K.pages
  nodup := K.nodup_pages
  reserve s := fact (s.layout = K) + ex fun l => freeChain s.freelist l

/-- Page `pg` with any contents. -/
def page (pg : Nat) : Own Nat Page := ex fun c => cell pg c

variable {K : Layout} {pg a : Nat} {c : Page} {R : Own Nat Page} {s : Mem}

theorem cell_le_page : cell pg c ≤ page pg := le_ex c le_rfl

theorem sat_cell (h : (world K).Sat s (cell pg c + R)) :
    (cell pg c + ((world K).reserve s + R)).holds s.ram K.pages := by
  rw [add_left_comm]
  exact h

/-- An owned page is one of the kernel's pages. -/
theorem sat_cell_mem (h : (world K).Sat s (cell pg c + R)) : pg ∈ K.pages := cell_mem (sat_cell h)

theorem sat_page_mem (h : (world K).Sat s (page pg + R)) : pg ∈ K.pages := by
  obtain ⟨c, hc⟩ := World.sat_ex_add.mp h
  exact sat_cell_mem hc

/-- Two pages in use are two pages. -/
theorem sat_page_ne {pg' : Nat} (h : (world K).Sat s (page pg + (page pg' + R))) : pg ≠ pg' := by
  obtain ⟨c, hc⟩ := World.sat_ex_add.mp h
  rw [add_left_comm] at hc
  obtain ⟨c', hc'⟩ := World.sat_ex_add.mp hc
  have h' := sat_cell hc'
  rw [add_left_comm ((world K).reserve s)] at h'
  exact (cell_ne (Multiset.coe_nodup.mpr K.nodup_pages) h').symm

theorem Layout.ne_zero_of_mem (h : pg ∈ K.pages) : pg ≠ 0 := by
  have h1 := (Layout.mem_pages.mp h).2.1
  have h2 := K.le_kend
  have h3 : KERNBASE = 2147483648 := rfl
  omega

namespace Mem

theorem access_ok (h : PGROUNDDOWN a ∈ K.pages) (s : Mem) : access a s = .ok ((), s) := by
  obtain ⟨-, hl, hr⟩ := Layout.mem_pages.mp h
  have h1 := K.le_kend
  have h2 : PHYSTOP = 557056 * 4096 := rfl
  have h3 : KERNBASE ≤ a ∧ a < PHYSTOP := by
    simp only [PGROUNDDOWN, PGSIZE] at hl hr
    omega
  simp only [access, if_pos h3]
  rfl

theorem readPage_eq {α : Type} (f : Page → α) (h : PGROUNDDOWN a ∈ K.pages) (s : Mem) :
    readPage a f s = .ok (f (s.ram (PGROUNDDOWN a)), s) := by
  change (access a s >>= fun p => Except.ok (f (p.2.ram (PGROUNDDOWN a)), p.2)) = _
  rw [access_ok h]
  rfl

theorem modifyPage_eq (f : Page → Page) (h : PGROUNDDOWN a ∈ K.pages) (s : Mem) :
    modifyPage a f s =
      .ok ((), { s with ram := Function.update s.ram (PGROUNDDOWN a) (f (s.ram (PGROUNDDOWN a))) }) := by
  change (access a s >>= fun p => Except.ok ((), _)) = _
  rw [access_ok h]
  rfl

theorem PGROUNDDOWN_page (h : pg ∈ K.pages) : PGROUNDDOWN pg = pg := by
  have := (Layout.mem_pages.mp h).1
  simp only [PGROUNDDOWN, PGSIZE] at this ⊢
  omega

theorem memset_eq (h : pg ∈ K.pages) (x : UInt8) (s : Mem) :
    memset pg x s = .ok ((), { s with ram := Function.update s.ram pg (Buffer.fill x) }) := by
  have hd := PGROUNDDOWN_page h
  rw [memset, modifyPage_eq _ (hd ▸ h), hd]

theorem load_eq (h : pg ∈ K.pages) (n : Nat) (s : Mem) : load pg n s = .ok ((s.ram pg).getLE 0 n, s) := by
  have hd := PGROUNDDOWN_page h
  rw [load, readPage_eq _ (hd ▸ h), hd, (Layout.mem_pages.mp h).1]

theorem store_eq (h : pg ∈ K.pages) (n v : Nat) (s : Mem) :
    store pg n v s = .ok ((), { s with ram := Function.update s.ram pg ((s.ram pg).putLE 0 n v) }) := by
  have hd := PGROUNDDOWN_page h
  rw [store, modifyPage_eq _ (hd ▸ h), hd, (Layout.mem_pages.mp h).1]

/-! ## Triples -/

theorem readPage_spec {α : Type} (f : Page → α) (ha : PGROUNDDOWN a = pg) :
    Triple (world K) (cell pg c) (readPage a f) fun v => fact (v = f c) + cell pg c := by
  subst ha
  intro R s hs
  have hv : s.ram (PGROUNDDOWN a) = c := cell_value (sat_cell hs)
  refine ⟨f c, s, ?_, ?_⟩
  · rw [readPage_eq f (sat_cell_mem hs), hv]
  · beta_reduce
    rwa [fact_of rfl, zero_add]

theorem modifyPage_spec (f : Page → Page) (ha : PGROUNDDOWN a = pg) :
    Triple (world K) (cell pg c) (modifyPage a f) fun _ => cell pg (f c) := by
  subst ha
  intro R s hs
  have hv : s.ram (PGROUNDDOWN a) = c := cell_value (sat_cell hs)
  refine ⟨(), { s with ram := Function.update s.ram (PGROUNDDOWN a) (f c) }, ?_, ?_⟩
  · rw [modifyPage_eq f (sat_cell_mem hs), hv]
  · rw [World.Sat, add_left_comm]
    exact cell_update (world K).nodup (sat_cell hs)

theorem load_spec {n : Nat} (ha : PGROUNDDOWN a = pg) :
    Triple (world K) (cell pg c) (load a n) fun v => fact (v = c.getLE (a % PGSIZE) n) + cell pg c :=
  readPage_spec _ ha

theorem store_spec {n v : Nat} (ha : PGROUNDDOWN a = pg) :
    Triple (world K) (cell pg c) (store a n v) fun _ => cell pg (c.putLE (a % PGSIZE) n v) :=
  modifyPage_spec _ ha

theorem page_offset {off : Nat} (h : pg ∈ K.pages) (ho : off < PGSIZE) :
    PGROUNDDOWN (pg + off) = pg ∧ (pg + off) % PGSIZE = off := by
  have := (Layout.mem_pages.mp h).1
  simp only [PGROUNDDOWN, PGSIZE] at this ho ⊢
  omega

/-- Reading a field of a structure at the start of a page. -/
theorem load_field_spec {off n : Nat} (ho : off < PGSIZE) :
    Triple (world K) (cell pg c) (load (pg + off) n) fun v => fact (v = c.getLE off n) + cell pg c :=
  .assume (fun _ _ h => page_offset (sat_cell_mem h) ho) fun h => by
    have hl := load_spec (K := K) (c := c) (n := n) h.1
    rwa [h.2] at hl

theorem store_field_spec {off n v : Nat} (ho : off < PGSIZE) :
    Triple (world K) (cell pg c) (store (pg + off) n v) fun _ => cell pg (c.putLE off n v) :=
  .assume (fun _ _ h => page_offset (sat_cell_mem h) ho) fun h => by
    have hl := store_spec (K := K) (c := c) (n := n) (v := v) h.1
    rwa [h.2] at hl

theorem memset_spec {x : UInt8} : Triple (world K) (cell pg c) (memset pg x) fun _ => cell pg (Buffer.fill x) :=
  .assume (fun _ _ h => PGROUNDDOWN_page (sat_cell_mem h)) fun h => modifyPage_spec _ h

theorem copyPage_spec {dst : Nat} {d : Page} :
    Triple (world K) (cell dst d + cell pg c) (copyPage dst pg) fun _ => cell dst c + cell pg c := by
  refine .assume (φ := PGROUNDDOWN pg = pg ∧ PGROUNDDOWN dst = dst) (fun R s h => ⟨?_, ?_⟩) fun ⟨hp, hd⟩ => ?_
  · rw [add_comm (cell dst d), add_assoc] at h
    exact PGROUNDDOWN_page (sat_cell_mem h)
  · rw [add_assoc] at h
    exact PGROUNDDOWN_page (sat_cell_mem h)
  · refine .seq (readPage_spec id hp) (cell dst d) (by rw [add_comm]) fun v => ?_
    rw [add_assoc]
    refine .fact fun hv => ?_
    subst hv
    rw [add_comm]
    exact (modifyPage_spec _ hd).frame _

theorem freeChain_head_lt {head : Nat} {l : List Nat} (h : (freeChain head l + R).holds s.ram K.pages) :
    head < 2 ^ 64 := by
  cases l with
  | nil =>
    rw [freeChain, holds_fact_add] at h
    omega
  | cons pg l =>
    rw [freeChain, add_assoc, holds_fact_add, ex_add] at h
    obtain ⟨rfl, c, hc⟩ := h
    simp only [add_assoc] at hc
    have := (Layout.mem_pages.mp (cell_mem hc)).2.2
    have h2 : PHYSTOP = 2281701376 := rfl
    omega

/-- The world of a memory, opened: its layout, and its free list beside the rest. -/
theorem sat_iff {P : Own Nat Page} :
    (world K).Sat s P ↔ s.layout = K ∧ ∃ l, (freeChain s.freelist l + P).holds s.ram K.pages := by
  simp only [World.Sat, world, add_assoc, holds_fact_add, ex_add]
  exact Iff.rfl

/-- Which allocations will fail is no part of what memory is used for. -/
theorem sat_withFails {fails : Nat → Bool} {P : Own Nat Page} : (world K).Sat (s.withFails fails) P ↔ (world K).Sat s P := by
  rw [sat_iff, sat_iff]
  rfl

/-- The contents kfree leaves in a page: junk, and the old head of the free list. -/
def freed (next : Nat) : Page := Buffer.putLE (Buffer.fill 1) 0 8 next

theorem kfree_eq (hm : pg ∈ s.layout.pages) :
    kfree pg s = .ok ((), { s with ram := Function.update s.ram pg (freed s.freelist), freelist := pg }) := by
  obtain ⟨ha, hl, hr⟩ := Layout.mem_pages.mp hm
  rw [kfree, Code.get_bind, if_neg (by omega),
    Code.bind_ok (memset_eq hm 1 s), Code.get_bind,
    Code.bind_ok (store_eq hm 8 _ _)]
  simp only [Function.update_self, Function.update_idem]
  rfl

/-- kfree takes the page over. -/
theorem kfree_spec : Triple (world K) (page pg) (kfree pg) fun _ => 0 := by
  refine .ex fun c R s hs => ?_
  have hm := sat_cell_mem hs
  obtain ⟨rfl, l, hl⟩ := sat_iff.mp hs
  have hlt := freeChain_head_lt hl
  refine ⟨(), _, kfree_eq hm, sat_iff.mpr ⟨rfl, pg :: l, ?_⟩⟩
  rw [freeChain, fact_of rfl, zero_add, ex_add, zero_add]
  refine ⟨freed s.freelist, ?_⟩
  have hnext : (freed s.freelist).getLE 0 8 = s.freelist := by
    rw [freed, Buffer.getLE_putLE (by decide), Nat.mod_eq_of_lt (by simpa using hlt)]
  beta_reduce
  rw [hnext, add_assoc]
  rw [add_left_comm] at hl
  exact cell_update s.layout.nodup_pages hl

theorem kalloc_eq (hf : s.fails 0 = false) (hm : s.freelist ∈ s.layout.pages) :
    kalloc s = .ok (s.freelist, { s with
      ram := Function.update s.ram s.freelist (Buffer.fill 5)
      freelist := (s.ram s.freelist).getLE 0 8
      fails := fun n => s.fails (n + 1) }) := by
  rw [kalloc, Code.bind_ok (rfl : refused s = .ok (s.fails 0, _)), hf]
  simp only [Bool.false_eq_true, if_false]
  rw [Code.get_bind, if_neg (Layout.ne_zero_of_mem hm),
    Code.bind_ok (load_eq hm 8 _), Code.modify_bind, Code.bind_ok (memset_eq hm 5 _)]
  rfl

theorem kalloc_none (h : s.fails 0 = true ∨ s.freelist = 0) :
    kalloc s = .ok (0, { s with fails := fun n => s.fails (n + 1) }) := by
  rw [kalloc, Code.bind_ok (rfl : refused s = .ok (s.fails 0, _))]
  by_cases hf : s.fails 0 = true
  · rw [hf]
    rfl
  · have h0 := h.resolve_left hf
    rw [if_neg hf, Code.get_bind, if_pos h0]
    rfl

/-- kalloc hands out a page filled with junk, or nothing. -/
theorem kalloc_spec :
    Triple (world K) 0 kalloc fun r => if r = 0 then 0 else cell r (Buffer.fill 5) := by
  intro R s hs
  rw [zero_add] at hs
  by_cases h : s.fails 0 = true ∨ s.freelist = 0
  · refine ⟨0, _, kalloc_none h, ?_⟩
    beta_reduce
    rw [if_pos rfl, zero_add]
    exact hs
  · obtain ⟨hf, h0⟩ := not_or.mp h
    obtain ⟨rfl, l, hl⟩ := sat_iff.mp hs
    cases l with
    | nil =>
      rw [freeChain, holds_fact_add] at hl
      exact absurd hl.1 h0
    | cons pg l =>
      rw [freeChain, add_assoc, holds_fact_add, ex_add] at hl
      obtain ⟨rfl, c, hc⟩ := hl
      simp only [add_assoc] at hc
      refine ⟨_, _, kalloc_eq (by simpa using hf) (cell_mem hc), ?_⟩
      simp only [if_neg h0]
      refine sat_iff.mpr ⟨rfl, l, ?_⟩
      rw [← cell_value hc] at hc
      rw [add_left_comm]
      exact cell_update s.layout.nodup_pages hc

end Mem

end Xv6
