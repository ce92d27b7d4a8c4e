/-
malloc over the kernel's sbrk. The size goes to sbrk as an int, and what comes back on
success is the old break, whether the break moved by that size or not. A request of up to
2^31 - 32 bytes becomes a positive int, the kernel's memory is fresh, and the heap is sane
(`malloc_sound`). A larger one becomes an int that is negative, zero or 16, while the
header of the new block records the full size: malloc returns a block behind the break
(`malloc_behind_break`).

The break before the first call is where exec left it: at a page, above the static header.
-/
import Xv6.Umalloc.Malloc
import Xv6.Proc.Model

namespace Xv6.Umalloc

open Lib Extent

/-- All the memory the kernel has for pages. -/
def PHYSMEM : Nat := PHYSTOP - KERNBASE

/-- growproc, on the size of the process. uvmalloc finds pages up to a size of `limit`. -/
def growproc (limit sz : Nat) (n : Int) : Option Nat :=
  if n > 0 then
    let newsz := Sys.u64OfInt (sz + n)
    if newsz ≤ limit then some newsz else none
  else if n < 0 then
    -- uvmdealloc
    let newsz := Sys.u64OfInt (sz + n)
    some (if newsz ≥ sz then sz else newsz)
  else some sz

/-- What the size of the process is after its calls of sbrk: each was made at the break the one before left. -/
def brk (brk0 : Nat) (s : State) : Nat :=
  match s.core with
  | [] => brk0
  | r :: _ => (growproc (2 ^ 64) r.addr (Sys.argint r.len)).getD r.addr

/-- sys_sbrk -/
def sysSbrk (brk0 limit : Nat) : Sbrk := fun s n =>
  let addr := brk brk0 s
  (growproc limit addr (Sys.argint n)).map fun _ => addr

/-- The number of bytes malloc asks morecore for. -/
def request (nbytes : Nat) : Nat := (if units nbytes < 4096 then 4096 else units nbytes) * HEADER

/-- A program's calls, with the blocks it has. The sizes it asks for meet `C`. -/
inductive Calls (base brk0 : Nat) (C : Nat → Prop) : State → List Extent → Prop
  | start {s : State} : s.freep = 0 → s.core = [] → Calls base brk0 C s []
  | malloc {s s' : State} {live : List Extent} {limit nbytes q : Nat} : Calls base brk0 C s live → limit ≤ PHYSMEM →
      nbytes < 2 ^ 32 → C nbytes → Yields (malloc base (sysSbrk brk0 limit) nbytes s) (q, s') →
      Calls base brk0 C s' (if q = 0 then live else ⟨q - HEADER, HEADER * s'.size (q - HEADER)⟩ :: live)
  | free {s s' : State} {live : List Extent} {b : Extent} : Calls base brk0 C s live → b ∈ live →
      Yields (free (b.addr + HEADER) s) s' → Calls base brk0 C s' (live.erase b)
  | write {s s' : State} {live : List Extent} : Calls base brk0 C s live → Writes live s s' → Calls base brk0 C s' live

variable {base brk0 limit n : Nat} {s s' : State} {core live : List Extent}

/-! ## The size as an int -/

theorem argint_exact_iff : (0 < Sys.argint n ∧ Sys.argint n = n) ↔ 0 < n ∧ n < 2 ^ 31 := by
  simp only [Sys.argint]
  split <;> omega

/-- The int is the size exactly for requests up to 2^31 - 32. -/
theorem request_exact_iff {nbytes : Nat} (h : nbytes < 2 ^ 32) : 0 < request nbytes ∧ request nbytes < 2 ^ 31 ↔
    nbytes ≤ 2 ^ 31 - 32 := by
  have hunits : units nbytes = (nbytes + 15) / 16 + 1 := by
    simp only [units, u32, HEADER]
    omega
  simp only [request, hunits, HEADER]
  by_cases hlt : (nbytes + 15) / 16 + 1 < 4096
  · rw [if_pos hlt]
    omega
  · rw [if_neg hlt]
    omega

theorem growproc_grows {sz : Nat} (h : 0 < n) (hn : n < 2 ^ 31) (hsz : sz + n < 2 ^ 64) :
    growproc limit sz (Sys.argint n) = if sz + n ≤ limit then some (sz + n) else none := by
  have hu : Sys.u64OfInt ((sz : Int) + (n : Int)) = sz + n := by
    rw [Sys.u64OfInt]
    omega
  rw [(argint_exact_iff.mpr ⟨h, hn⟩).2, growproc, if_pos (by omega)]
  simp only [hu]

/-! ## The memory the kernel gave -/

/-- Where the last of the extents ends. -/
def topOf (brk0 : Nat) : List Extent → Nat
  | [] => brk0
  | r :: _ => r.stop

/-- Each of the extents starts where the one before ends, and is what the kernel was asked for. -/
def Linked (brk0 : Nat) : List Extent → Prop
  | [] => True
  | r :: core => Linked brk0 core ∧ r.addr = topOf brk0 core ∧ HEADER ∣ r.len ∧ 0 < r.len ∧ r.len < 2 ^ 31 ∧
    r.stop ≤ PHYSMEM

namespace Linked

theorem brk_eq (h : Linked brk0 s.core) : brk brk0 s = topOf brk0 s.core := by
  unfold brk
  cases hc : s.core with
  | nil => rfl
  | cons r core =>
    rw [hc] at h
    obtain ⟨-, -, -, hpos, hlt, hstop⟩ := h
    have hmem : r.stop < 2 ^ 64 := hstop.trans_lt (by decide)
    have hgrow := @growproc_grows (2 ^ 64) r.len r.addr hpos hlt hmem
    rw [if_pos (show r.addr + r.len ≤ 2 ^ 64 from hmem.le)] at hgrow
    simp only [hgrow]
    rfl

theorem total_eq (h : Linked brk0 core) : brk0 + total core = topOf brk0 core := by
  induction core with
  | nil => rfl
  | cons r core ih =>
    have ih := ih h.1
    have haddr := h.2.1
    rw [total_cons, topOf, stop]
    omega

theorem stop_le (h : Linked brk0 core) {r : Extent} (hr : r ∈ core) : brk0 ≤ r.addr ∧ r.stop ≤ topOf brk0 core := by
  induction core with
  | nil => cases hr
  | cons r' core ih =>
    have htop := h.1.total_eq
    have haddr := h.2.1
    rcases List.mem_cons.mp hr with rfl | hr
    · exact ⟨by omega, le_rfl⟩
    · obtain ⟨hlo, hhi⟩ := ih h.1 hr
      refine ⟨hlo, ?_⟩
      rw [topOf]
      unfold stop at *
      omega

theorem dvd (h : Linked brk0 core) (h0 : HEADER ∣ brk0) : HEADER ∣ topOf brk0 core := by
  induction core with
  | nil => exact h0
  | cons r core ih =>
    rw [topOf, stop, h.2.1]
    exact Nat.dvd_add (ih h.1) h.2.2.1

end Linked

/-! ## The calls of sbrk malloc makes -/

theorem core_free {ap fuel : Nat} (h : free ap s fuel = some s') : s'.core = s.core := by
  obtain ⟨p, -, rfl⟩ := Option.map_eq_some_iff.mp h
  unfold joinPrev joinNext
  dsimp only
  split <;> split <;> rfl

theorem core_take {nunits prevp p : Nat} : (take nunits prevp p s).2.core = s.core := by
  unfold take
  split <;> rfl

/-- A property of the memory obtained that sbrk keeps, morecore keeps. -/
theorem core_morecore {sbrk : Sbrk} {P : List Extent → Prop} {fuel q : Nat}
    (hkeep : ∀ (s : State) (a : Nat), P s.core → sbrk s ((if n < 4096 then 4096 else n) * HEADER) = some a →
      P (⟨a, (if n < 4096 then 4096 else n) * HEADER⟩ :: s.core))
    (hP : P s.core) (h : morecore sbrk n s fuel = some (q, s')) : P s'.core := by
  unfold morecore at h
  dsimp only at h
  cases ha : sbrk s ((if n < 4096 then 4096 else n) * HEADER) with
  | none =>
    rw [ha] at h
    cases h
    exact hP
  | some a =>
    rw [ha] at h
    obtain ⟨s2, hfree, he⟩ := Option.map_eq_some_iff.mp h
    cases he
    rw [core_free hfree]
    exact hkeep s a hP ha

section Loop

variable {sbrk sbrk' : Sbrk} {P : List Extent → Prop}
  (hkeep : ∀ (s : State) (a : Nat), P s.core → sbrk s ((if n < 4096 then 4096 else n) * HEADER) = some a →
    P (⟨a, (if n < 4096 then 4096 else n) * HEADER⟩ :: s.core))

include hkeep

theorem core_mallocLoop {fuel prevp p q : Nat} (hP : P s.core) (h : mallocLoop sbrk n fuel prevp p s = some (q, s')) :
    P s'.core := by
  induction fuel generalizing prevp p s with
  | zero => cases h
  | succ fuel ih =>
    rw [mallocLoop] at h
    split at h
    · have hcore := @core_take s n prevp p
      rw [Option.some.inj h] at hcore
      rw [hcore]
      exact hP
    split at h
    · cases hm : morecore sbrk n s fuel with
      | none =>
        rw [hm] at h
        cases h
      | some r =>
        rw [hm] at h
        have hP1 := core_morecore hkeep hP hm
        dsimp only at h
        split at h
        · cases h
          exact hP1
        · exact ih hP1 h
    · exact ih hP h

/-- malloc asks sbrk for one size only, and the answers are all it learns of the kernel. -/
theorem mallocLoop_congr
    (hsame : ∀ s : State, P s.core → sbrk s ((if n < 4096 then 4096 else n) * HEADER) =
      sbrk' s ((if n < 4096 then 4096 else n) * HEADER)) {fuel prevp p : Nat} (hP : P s.core) :
    mallocLoop sbrk n fuel prevp p s = mallocLoop sbrk' n fuel prevp p s := by
  induction fuel generalizing prevp p s with
  | zero => rfl
  | succ fuel ih =>
    have hmore : morecore sbrk n s fuel = morecore sbrk' n s fuel := by
      unfold morecore
      dsimp only
      rw [hsame s hP]
    rw [mallocLoop, mallocLoop, hmore]
    split
    · rfl
    split
    · cases hm : morecore sbrk' n s fuel with
      | none => rfl
      | some r =>
        dsimp only
        split
        · rfl
        · exact ih (core_morecore hkeep hP (hmore.trans hm))
    · exact ih hP

end Loop

section Malloc

variable {sbrk sbrk' : Sbrk} {P : List Extent → Prop} {nbytes : Nat}
  (hkeep : ∀ (s : State) (a : Nat), P s.core → sbrk s (request nbytes) = some a → P (⟨a, request nbytes⟩ :: s.core))

include hkeep

theorem malloc_congr (hsame : ∀ s : State, P s.core → sbrk s (request nbytes) = sbrk' s (request nbytes))
    (hP : P s.core) : malloc base sbrk nbytes s = malloc base sbrk' nbytes s := by
  funext fuel
  unfold malloc
  dsimp only
  refine mallocLoop_congr hkeep hsame ?_
  split <;> exact hP

theorem core_malloc {fuel q : Nat} (hP : P s.core) (h : malloc base sbrk nbytes s fuel = some (q, s')) : P s'.core := by
  unfold malloc at h
  dsimp only at h
  refine core_mallocLoop hkeep ?_ h
  split <;> exact hP

end Malloc

/-! ## Requests that fit into an int -/

theorem Linked.topOf_le (h : Linked brk0 core) (h0 : brk0 ≤ PHYSMEM) : topOf brk0 core ≤ PHYSMEM := by
  cases core with
  | nil => exact h0
  | cons r core => exact h.2.2.2.2.2

theorem sysSbrk_linked (h0 : brk0 ≤ PHYSMEM) (hl : limit ≤ PHYSMEM) (h : Linked brk0 s.core) (hd : HEADER ∣ n)
    (hn : 0 < n ∧ n < 2 ^ 31) {a : Nat} (ha : sysSbrk brk0 limit s n = some a) :
    a = topOf brk0 s.core ∧ Linked brk0 (⟨a, n⟩ :: s.core) := by
  obtain ⟨sz, hgrow, rfl⟩ := Option.map_eq_some_iff.mp ha
  have htop := h.topOf_le h0
  have hmem : PHYSMEM < 2 ^ 63 := by decide
  rw [h.brk_eq] at hgrow ⊢
  rw [growproc_grows hn.1 hn.2 (by omega)] at hgrow
  split at hgrow
  · next hle => exact ⟨rfl, h, rfl, hd, hn.1, hn.2, hle.trans hl⟩
  · cases hgrow

/-- sbrk, where nothing went wrong before. -/
def guarded (brk0 limit : Nat) : Sbrk := fun s n =>
  if (∀ r ∈ s.core, r.stop ≤ brk brk0 s) ∧ HEADER ∣ brk brk0 s ∧ brk0 ≤ brk brk0 s ∧ brk brk0 s + n ≤ PHYSMEM ∧
      total s.core + n ≤ PHYSMEM then sysSbrk brk0 limit s n
  else none

theorem guarded_spec {a : Nat} (h : guarded brk0 limit s n = some a) : a = brk brk0 s ∧ (∀ r ∈ s.core, r.stop ≤ a) ∧
    HEADER ∣ a ∧ brk0 ≤ a ∧ a + n ≤ PHYSMEM ∧ total s.core + n ≤ PHYSMEM := by
  unfold guarded at h
  split at h
  · next hc =>
    obtain ⟨sz, -, rfl⟩ := Option.map_eq_some_iff.mp h
    exact ⟨rfl, hc⟩
  · cases h

theorem guarded_fresh (hbase : base + HEADER ≤ brk0) : Fresh base (guarded brk0 limit) := by
  intro s n a h
  obtain ⟨-, hcore, hd, hlo, hhi, -⟩ := guarded_spec h
  exact ⟨hd, hbase.trans hlo, hcore, hhi.trans_lt (by decide)⟩

theorem guarded_small : Small (guarded brk0 limit) := by
  intro s n a h
  obtain ⟨-, -, -, -, -, htotal⟩ := guarded_spec h
  exact htotal.trans_lt (by decide)

/-- Asked for a size that fits, in a state that linked extents led to, it is the kernel's sbrk. -/
theorem guarded_eq (h0 : brk0 ≤ PHYSMEM) (hl : limit ≤ PHYSMEM) (hal : HEADER ∣ brk0) (h : Linked brk0 s.core)
    (hd : HEADER ∣ n) (hn : 0 < n ∧ n < 2 ^ 31) : guarded brk0 limit s n = sysSbrk brk0 limit s n := by
  unfold guarded
  split
  · rfl
  · next hc =>
    cases ha : sysSbrk brk0 limit s n with
    | none => rfl
    | some a =>
      obtain ⟨rfl, hlink⟩ := sysSbrk_linked h0 hl h hd hn ha
      refine absurd ?_ hc
      have htotal := h.total_eq
      have hstop : topOf brk0 s.core + n ≤ PHYSMEM := hlink.2.2.2.2.2
      rw [h.brk_eq]
      exact ⟨fun r hr => (h.stop_le hr).2, h.dvd hal, by omega, hstop, by omega⟩

/-- The heap and the memory after the calls. -/
structure Sound (base brk0 : Nat) (s : State) (live : List Extent) : Prop where
  sane : Sane base s live
  core : Core base s
  linked : Linked brk0 s.core

theorem Sound.malloc {nbytes : Nat} (hpos : 0 < base) (hbase : base + HEADER ≤ brk0) (h0 : brk0 ≤ PHYSMEM)
    (hal : HEADER ∣ brk0) (h : Sound base brk0 s live) (hl : limit ≤ PHYSMEM) (hn : nbytes ≤ 2 ^ 31 - 32) :
    ∃ q s', Yields (malloc base (sysSbrk brk0 limit) nbytes s) (q, s') ∧
      (q = 0 ∧ Sound base brk0 s' live ∨ ∃ c : Extent, q = c.addr + HEADER ∧ HEADER * s'.size c.addr = c.len ∧
        Sound base brk0 s' (c :: live) ∧ HEADER + nbytes ≤ c.len) := by
  have hd : HEADER ∣ request nbytes := Dvd.intro_left _ rfl
  have hfit := (request_exact_iff (show nbytes < 2 ^ 32 by omega)).mpr hn
  have hkeep (s : State) (a : Nat) (hs : Linked brk0 s.core) (ha : sysSbrk brk0 limit s (request nbytes) = some a) :
      Linked brk0 (⟨a, request nbytes⟩ :: s.core) := (sysSbrk_linked h0 hl hs hd hfit ha).2
  have hsame : Umalloc.malloc base (sysSbrk brk0 limit) nbytes s = Umalloc.malloc base (guarded brk0 limit) nbytes s :=
    malloc_congr hkeep (fun s hs => (guarded_eq h0 hl hal hs hd hfit).symm) h.linked
  obtain ⟨q, s', hy, hcore, hres⟩ :=
    malloc_spec hpos (guarded_fresh hbase) guarded_small h.sane h.core (show nbytes < 2 ^ 32 by omega)
  rw [← hsame] at hy
  have hlinked : Linked brk0 s'.core := by
    obtain ⟨k, hk⟩ := hy
    exact core_malloc hkeep h.linked (hk k le_rfl)
  refine ⟨q, s', hy, ?_⟩
  rcases hres with ⟨rfl, hsane⟩ | ⟨c, hq, hsz, hsane, hlen⟩
  · exact .inl ⟨rfl, hsane, hcore, hlinked⟩
  · exact .inr ⟨c, hq, hsz, ⟨hsane, hcore, hlinked⟩, hlen⟩

theorem Sound.of_calls (hpos : 0 < base) (hbase : base + HEADER ≤ brk0) (h0 : brk0 ≤ PHYSMEM)
    (hal : HEADER ∣ brk0) (hr : Calls base brk0 (· ≤ 2 ^ 31 - 32) s live) : Sound base brk0 s live := by
  induction hr with
  | start h0 hcore =>
    refine ⟨.inl ⟨h0, hcore, rfl⟩, ⟨fun x => ?_, fun r hr => ?_, ?_⟩, ?_⟩
    · rw [hcore]
      exact Nat.zero_le 1
    · rw [hcore] at hr
      cases hr
    · rw [hcore]
      decide
    · rw [hcore]
      trivial
  | malloc hr hl hlt hn hy ih =>
    obtain ⟨q, s', hy', hres⟩ := ih.malloc hpos hbase h0 hal hl hn
    cases hy.unique hy'
    rcases hres with ⟨rfl, hsound⟩ | ⟨c, rfl, hsz, hsound, -⟩
    · exact hsound
    · rw [if_neg (by have : HEADER = 16 := rfl; omega), Nat.add_sub_cancel, hsz]
      exact hsound
  | free hr hb hy ih =>
    obtain ⟨s', hy', hsane, hcore⟩ := ih.sane.free ih.core hb
    cases hy.unique hy'
    obtain ⟨k, hk⟩ := hy
    exact ⟨hsane, hcore, core_free (hk k le_rfl) ▸ ih.linked⟩
  | write hr hw ih => exact ⟨ih.sane.write ih.core hw, ih.core.congr hw.2.1, hw.2.1 ▸ ih.linked⟩

/-- A block in use lies below the break. -/
theorem Sound.stop_le_brk (h : Sound base brk0 s live) {b : Extent} (hb : b ∈ live) : b.stop ≤ brk brk0 s := by
  rcases h.sane with ⟨-, -, rfl⟩ | ⟨F, hheap, -⟩
  · cases hb
  have hpos := (hheap.tiled.sizes b (List.mem_append_right F hb)).2
  obtain ⟨r, hr, hlast⟩ := hheap.tiled.mem_core (List.mem_append_right F hb) (x := b.stop - 1)
    ⟨by unfold stop; omega, by unfold stop; omega⟩
  have hstop := (h.linked.stop_le hr).2
  have := hlast.2
  rw [h.linked.brk_eq]
  omega

theorem Sound.disjoint (h : Sound base brk0 s live) : live.Pairwise Extent.Disjoint := by
  rcases h.sane with ⟨-, -, rfl⟩ | ⟨F, hheap, -⟩
  · exact List.Pairwise.nil
  · exact (List.pairwise_append.mp (hheap.tiled.disjoint h.core)).2.1

theorem Linked.exact (h : Linked brk0 core) {r : Extent} (hr : r ∈ core) :
    0 < Sys.argint r.len ∧ Sys.argint r.len = r.len := by
  induction core with
  | nil => cases hr
  | cons r' core ih =>
    rcases List.mem_cons.mp hr with rfl | hr
    · exact argint_exact_iff.mpr ⟨h.2.2.2.1, h.2.2.2.2.1⟩
    · exact ih h.1 hr

/-- **malloc over the kernel's sbrk.** The int that goes to sbrk is positive and the number of bytes recorded in the new
block's header exactly for requests up to 2^31 - 32 bytes. If all requests are such, every malloc returns 0 or a block
whose header and bytes lie below the new break and apart from the other blocks in use. -/
theorem malloc_sound {nbytes : Nat} (hpos : 0 < base) (hbase : base + HEADER ≤ brk0) (h0 : brk0 ≤ PHYSMEM)
    (hal : HEADER ∣ brk0) (hr : Calls base brk0 (· ≤ 2 ^ 31 - 32) s live) (hl : limit ≤ PHYSMEM)
    (hn : nbytes < 2 ^ 32) :
    ((0 < Sys.argint (request nbytes) ∧ Sys.argint (request nbytes) = request nbytes) ↔ nbytes ≤ 2 ^ 31 - 32) ∧
    (nbytes ≤ 2 ^ 31 - 32 → ∃ q s', Yields (malloc base (sysSbrk brk0 limit) nbytes s) (q, s') ∧
      (∀ r ∈ s'.core, 0 < Sys.argint r.len ∧ Sys.argint r.len = r.len) ∧
      (q = 0 ∨ ∃ c : Extent, q = c.addr + HEADER ∧ HEADER * s'.size c.addr = c.len ∧ q + nbytes ≤ c.stop ∧
        c.stop ≤ brk brk0 s' ∧ ∀ b ∈ live, c.Disjoint b)) := by
  refine ⟨argint_exact_iff.trans (request_exact_iff hn), fun hfit => ?_⟩
  obtain ⟨q, s', hy, hres⟩ := (Sound.of_calls hpos hbase h0 hal hr).malloc hpos hbase h0 hal hl hfit
  rcases hres with ⟨rfl, hsound⟩ | ⟨c, rfl, hsz, hsound, hlen⟩
  · exact ⟨0, s', hy, fun r hr => hsound.linked.exact hr, .inl rfl⟩
  · refine ⟨_, s', hy, fun r hr => hsound.linked.exact hr, .inr ⟨c, rfl, hsz, ?_, ?_, ?_⟩⟩
    · unfold stop
      omega
    · exact hsound.stop_le_brk List.mem_cons_self
    · exact (List.pairwise_cons.mp hsound.disjoint).1

/-- A program asks for 100 bytes. -/
theorem malloc_sound_hundred : ∃ (q : Nat) (s : State), Yields (malloc 16 (sysSbrk 12288 PHYSMEM) 100 {}) (q, s) ∧
    (q = 0 ∨ q + 100 ≤ brk 12288 s) := by
  obtain ⟨q, s, hy, -, hres⟩ := (malloc_sound (by decide) (by decide) (by decide) (by decide)
    (.start rfl rfl : Calls 16 12288 _ {} []) le_rfl (show 100 < 2 ^ 32 by decide)).2 (by decide)
  refine ⟨q, s, hy, hres.imp_right ?_⟩
  rintro ⟨c, -, -, hle, hbrk, -⟩
  exact hle.trans hbrk

/-- What malloc(2^32 - 1) leaves: sbrk got the int 16, so the break is 16 bytes further. -/
def behind (r : Nat × State) : Bool :=
  decide (r.1 = 12304 ∧ brk 12288 r.2 = 12304 ∧ HEADER * r.2.size (r.1 - HEADER) = 2 ^ 32 + 16)

/-- **A block behind the break.** malloc(2^32 - 1) asks morecore for 2^28 + 1 headers, sbrk gets the int 16, and the
block that comes back starts at the new break. -/
theorem malloc_behind_break : ∃ (q : Nat) (s : State),
    Yields (malloc 16 (sysSbrk 12288 PHYSMEM) (2 ^ 32 - 1) {}) (q, s) ∧ q = 12304 ∧ brk 12288 s = 12304 ∧
    HEADER * s.size (q - HEADER) = 2 ^ 32 + 16 ∧ Sys.argint (request (2 ^ 32 - 1)) = 16 := by
  have hany : (malloc 16 (sysSbrk 12288 PHYSMEM) (2 ^ 32 - 1) {} 8).any behind = true := by decide +kernel
  obtain ⟨⟨q, s⟩, hs, hb⟩ := (Option.any_eq_true _ _).mp hany
  obtain ⟨hq, hbrk, hsize⟩ := of_decide_eq_true hb
  exact ⟨q, s, (malloc_steady _ _ _ _).yields hs, hq, hbrk, hsize, by decide⟩

end Xv6.Umalloc
