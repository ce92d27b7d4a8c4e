/-
User address spaces. `Space K root tf n leaf data` owns a process's page table and its
user memory, in the shape every system call keeps: virtual pages 0 to n - 1 are mapped
as readable leaves, each to a page of its own with contents `data`; the trapframe page
`tf` and the trampoline are mapped at the top; nothing else is. The functions of vm.c
that grow, shrink, copy and free an address space, and those of proc.c that create one,
take such a space to such a space, or give back exactly what they took.
-/
import Xv6.Vm.PageTable

namespace Xv6

open Lib Lib.Own Mem

def trampolineVpn : Nat := TRAMPOLINE / PGSIZE
def trapframeVpn : Nat := TRAPFRAME / PGSIZE

theorem trampolineVpn_eq : trampolineVpn = 67108863 := rfl
theorem trapframeVpn_eq : trapframeVpn = 67108862 := rfl

def Layout.trampolinePte (K : Layout) : Nat := PA2PTE K.trampoline ||| (PTE_R ||| PTE_X) ||| PTE_V

def trapframePte (tf : Nat) : Nat := PA2PTE tf ||| (PTE_R ||| PTE_W) ||| PTE_V

/-- What a process's page table maps. -/
structure Shape (K : Layout) (tf n : Nat) (leaf : Nat → Nat) : Prop where
  fits : n ≤ trapframeVpn
  user : ∀ k < n, Flag (leaf k) PTE_V ∧ Flag (leaf k) PTE_R
  trapframe : leaf trapframeVpn = trapframePte tf
  trampoline : leaf trampolineVpn = K.trampolinePte
  rest : ∀ k, n ≤ k → k < 512 ^ 3 → k ≠ trapframeVpn → k ≠ trampolineVpn → leaf k = 0

/-- The memory of the first `n` user pages. -/
def userPages (n : Nat) (leaf : Nat → Nat) (data : Nat → Page) : Own Nat Page :=
  ∑ k ∈ Finset.Ico 0 n, cell (PTE2PA (leaf k)) (data k)

def Space (K : Layout) (root tf n : Nat) (leaf : Nat → Nat) (data : Nat → Page) : Own Nat Page :=
  fact (Shape K tf n leaf) + (PT 2 root leaf + userPages n leaf data)

variable {K : Layout} {root tf n m : Nat} {leaf leaf' : Nat → Nat} {data data' : Nat → Page} {R : Own Nat Page} {s : Mem}

/-! ## Pages of an address space -/

theorem userPages_congr (hl : ∀ k < n, leaf k = leaf' k) (hd : ∀ k < n, data k = data' k) :
    userPages n leaf data = userPages n leaf' data' := by
  refine Finset.sum_congr rfl fun k hk => ?_
  have hk' := (Finset.mem_Ico.mp hk).2
  rw [hl k hk', hd k hk']

theorem userPages_succ (n : Nat) :
    userPages (n + 1) leaf data = userPages n leaf data + cell (PTE2PA (leaf n)) (data n) :=
  Finset.sum_Ico_succ_top (Nat.zero_le n) _

/-- One page taken out of the others. -/
theorem userPages_split {k : Nat} (hk : k < n) : userPages n leaf data =
    cell (PTE2PA (leaf k)) (data k) + ∑ j ∈ (Finset.Ico 0 n).erase k, cell (PTE2PA (leaf j)) (data j) :=
  (Finset.add_sum_erase _ _ (Finset.mem_Ico.mpr ⟨Nat.zero_le k, hk⟩)).symm

/-- One page put back with other contents. -/
theorem userPages_update {k : Nat} (hk : k < n) (c : Page) :
    cell (PTE2PA (leaf k)) c + ∑ j ∈ (Finset.Ico 0 n).erase k, cell (PTE2PA (leaf j)) (data j) ≤
      userPages n leaf (Function.update data k c) := by
  rw [userPages_split hk, Function.update_self]
  refine add_le_add_right (sum_erase_le fun j hne => ?_) _
  rw [Function.update_of_ne hne]

/-- Distinct pages are no more than there are. -/
theorem holds_userPages {S : Multiset Nat} {mm : Nat → Page} (h : (userPages n leaf data + R).holds mm S) :
    n ≤ S.card := by
  induction n generalizing R S with
  | zero => exact Nat.zero_le _
  | succ n ih =>
    rw [userPages_succ, add_assoc] at h
    obtain ⟨S₁, S₂, rfl, h₁, S₃, S₄, rfl, ⟨rfl, -⟩, -⟩ := h
    have := ih (R := 0) (by rw [add_zero]; exact h₁)
    simp only [Multiset.card_add, Multiset.card_singleton]
    omega

theorem Layout.length_pages (K : Layout) : K.pages.length ≤ 32768 := by
  have h1 := K.le_kend
  have h2 : PHYSTOP = 2281701376 := rfl
  have h3 : KERNBASE = 2147483648 := rfl
  have h4 : PGROUNDUP K.kend = (K.kend + 4095) / 4096 * 4096 := by
    have := K.kend_le
    rw [PGROUNDUP_eq (by simp only [PGSIZE]; omega)]
    rfl
  simp only [Layout.pages, List.length_map, List.length_range, h4, show PGSIZE = 4096 from rfl]
  omega

/-- Physical memory bounds an address space. -/
theorem sat_userPages_le (h : (world K).Sat s (userPages n leaf data + R)) : n ≤ 32768 := by
  rw [World.Sat, add_left_comm] at h
  exact (holds_userPages h).trans K.length_pages

theorem Shape.maps (h : Shape K tf n leaf) {k : Nat} (hk : k < n) : Maps (leaf k) := by
  obtain ⟨hv, hr⟩ := h.user k hk
  refine ⟨hv, fun he => hr ?_⟩
  rw [← flags_and (by decide), he]
  decide

theorem Shape.congr (h : Shape K tf n leaf) (he : ∀ k < 512 ^ 3, leaf k = leaf' k) : Shape K tf n leaf' where
  fits := h.fits
  user k hk := by
    have := h.fits
    rw [← he k (by rw [trapframeVpn_eq] at this; omega)]
    exact h.user k hk
  trapframe := (he _ (by decide)).symm.trans h.trapframe
  trampoline := (he _ (by decide)).symm.trans h.trampoline
  rest k h1 h2 h3 h4 := (he k h2).symm.trans (h.rest k h1 h2 h3 h4)

/-- The leaves of an address space that is cut to `m` pages. -/
theorem Shape.clear (h : Shape K tf n leaf) (hm : m ≤ n) : Shape K tf m (clearRange leaf m (n - m)) := by
  have hf := h.fits
  have h1 := trapframeVpn_eq
  have h2 := trampolineVpn_eq
  refine ⟨by omega, fun k hk => ?_, ?_, ?_, fun k hk hlt ht htr => ?_⟩
  · rw [clearRange, if_neg (by omega)]
    exact h.user k (by omega)
  · rw [clearRange, if_neg (by omega)]
    exact h.trapframe
  · rw [clearRange, if_neg (by omega)]
    exact h.trampoline
  · rw [clearRange]
    split
    · rfl
    · exact h.rest k (by omega) hlt ht htr

/-- Growing by one page. -/
theorem Shape.push (h : Shape K tf n leaf) (hn : n < trapframeVpn) {w : Nat} (hv : Flag w PTE_V) (hr : Flag w PTE_R) :
    Shape K tf (n + 1) (Function.update leaf n w) := by
  have h1 := trapframeVpn_eq
  have h2 := trampolineVpn_eq
  refine ⟨hn, fun k hk => ?_, ?_, ?_, fun k hk hlt ht htr => ?_⟩
  · rw [Function.update_apply]
    split
    · exact ⟨hv, hr⟩
    · exact h.user k (by omega)
  · rw [Function.update_of_ne (by omega)]
    exact h.trapframe
  · rw [Function.update_of_ne (by omega)]
    exact h.trampoline
  · rw [Function.update_of_ne (by omega)]
    exact h.rest k (by omega) hlt ht htr

theorem Space_congr (hl : ∀ k < 512 ^ 3, leaf k = leaf' k) (hd : ∀ k < n, data k = data' k) :
    Space K root tf n leaf data ≤ Space K root tf n leaf' data' := by
  refine fact_add_le fun h => le_fact_add (h.congr hl) ?_
  have hf := h.fits
  rw [trapframeVpn_eq] at hf
  rw [userPages_congr (fun k hk => hl k (by omega)) hd]
  exact add_le_add_left (PT_congr hl) _

/-! ## Shrinking -/

theorem userPages_le_pages (m : Nat) (hm : m ≤ n) : userPages n leaf data ≤
    userPages m leaf data + ∑ k ∈ Finset.Ico m (m + (n - m)), if true then page (PTE2PA (leaf k)) else 0 := by
  rw [userPages, ← Finset.sum_Ico_consecutive _ (Nat.zero_le m) hm, show m + (n - m) = n by omega]
  exact add_le_add_right (Finset.sum_le_sum fun k _ => cell_le_page) _

/-- Unmapping and freeing the pages from `m` on. -/
theorem unmap_tail_spec (hm : m ≤ n) :
    Triple (world K) (Space K root tf n leaf data) (uvmunmap root (m * PGSIZE) (n - m) true)
      fun _ => Space K root tf m (clearRange leaf m (n - m)) data := by
  refine .fact fun h => ?_
  have hf := h.fits
  have h1 := trapframeVpn_eq
  have hmax : (m + (n - m)) * PGSIZE ≤ MAXVA := by
    rw [show MAXVA = 2 ^ 38 from rfl, show PGSIZE = 4096 from rfl]
    omega
  have hmaps : ∀ k, m ≤ k → k < m + (n - m) → Maps (leaf k) := fun k _ hk => h.maps (by omega)
  refine ((uvmunmap_spec hmax hmaps).frame (userPages m leaf data)).conseq ?_ fun _ => ?_
  · rw [add_right_comm, add_assoc]
    exact add_le_add_right (userPages_le_pages m hm) _
  · refine le_fact_add (h.clear hm) (add_le_add_right (le_of_eq ?_) _)
    refine userPages_congr (fun k hk => ?_) fun _ _ => rfl
    rw [clearRange, if_neg (by omega)]

theorem intToU64_small {x : Nat} (h : x < 2 ^ 31) : intToU64 x = x := by
  rw [intToU64, if_pos (by omega), Nat.mod_eq_of_lt (by omega)]

/-- uvmdealloc cuts the space to the pages below the new size. -/
theorem uvmdealloc_spec {oldsz newsz : Nat} (hn : n = pagesBelow oldsz) (hle : newsz ≤ oldsz) :
    Triple (world K) (Space K root tf n leaf data) (uvmdealloc root oldsz newsz) fun r =>
      fact (r = newsz) + Space K root tf (pagesBelow newsz) (clearRange leaf (pagesBelow newsz) (n - pagesBelow newsz)) data := by
  have hmn : pagesBelow newsz ≤ n := hn ▸ pagesBelow_mono hle
  refine .assume (φ := n ≤ trapframeVpn) (fun R s hs => ?_) fun hf => ?_
  · rw [Space, add_assoc, World.sat_fact_add] at hs
    exact hs.1.fits
  rw [trapframeVpn_eq] at hf
  have hp : PGSIZE = 4096 := rfl
  have hold : PGROUNDUP oldsz = n * PGSIZE := by
    have := le_pagesBelow_mul oldsz
    rw [PGROUNDUP_eq (by rw [hp] at this ⊢; omega), hn]
  have hnew : PGROUNDUP newsz = pagesBelow newsz * PGSIZE := by
    have := le_pagesBelow_mul oldsz
    rw [PGROUNDUP_eq (by rw [hp] at this ⊢; omega)]
  unfold uvmdealloc
  split
  · next h =>
    have he : newsz = oldsz := Nat.le_antisymm hle h
    refine .ret (le_fact_add he.symm ?_)
    rw [he, ← hn, Nat.sub_self, clearRange_zero]
  · refine .bind (Q := fun _ =>
      Space K root tf (pagesBelow newsz) (clearRange leaf (pagesBelow newsz) (n - pagesBelow newsz)) data) ?_ fun _ => ?_
    · refine .when (fun _ => ?_) fun h => ?_
      · have hnp : intToU64 ((PGROUNDUP oldsz - PGROUNDUP newsz) / PGSIZE) = n - pagesBelow newsz := by
          rw [hold, hnew, ← Nat.sub_mul, Nat.mul_div_cancel _ (by decide)]
          exact intToU64_small (by omega)
        rw [hnp, hnew]
        exact unmap_tail_spec hmn
      · rw [hold, hnew, hp] at h
        have he : pagesBelow newsz = n := by omega
        rw [he, Nat.sub_self, clearRange_zero]
    · exact .ret (le_fact_add rfl le_rfl)

/-! ## Growing -/

/-- The space grew from `n₀` to `n` pages: the old pages are as they were, the new ones are zero pages
with the flags `perm`. -/
structure Grown (n₀ n perm : Nat) (leaf₀ leaf : Nat → Nat) (data₀ data : Nat → Page) : Prop where
  le : n₀ ≤ n
  old : ∀ k < n₀, leaf k = leaf₀ k ∧ data k = data₀ k
  new : ∀ k, n₀ ≤ k → k < n → PTE_FLAGS (leaf k) = perm ∧ data k = Buffer.fill 0
  above : ∀ k, n ≤ k → leaf k = leaf₀ k

theorem Grown.refl {perm : Nat} : Grown n n perm leaf leaf data data :=
  ⟨le_rfl, fun _ _ => ⟨rfl, rfl⟩, fun _ h1 h2 => absurd h2 (by omega), fun _ _ => rfl⟩

theorem Grown.push {n₀ perm w : Nat} {leaf₀ : Nat → Nat} {data₀ : Nat → Page} (h : Grown n₀ n perm leaf₀ leaf data₀ data)
    (hw : PTE_FLAGS w = perm) :
    Grown n₀ (n + 1) perm leaf₀ (Function.update leaf n w) data₀ (Function.update data n (Buffer.fill 0)) := by
  have hle := h.le
  refine ⟨by omega, fun k hk => ?_, fun k h1 h2 => ?_, fun k hk => ?_⟩
  · rw [Function.update_of_ne (by omega), Function.update_of_ne (by omega)]
    exact h.old k hk
  · simp only [Function.update_apply]
    split
    · exact ⟨hw, rfl⟩
    · exact h.new k h1 (by omega)
  · rw [Function.update_of_ne (by omega)]
    exact h.above k (by omega)

/-- Cutting a grown space back gives the space it grew from. -/
theorem Grown.cut {n₀ perm : Nat} {leaf₀ : Nat → Nat} {data₀ : Nat → Page} (h : Grown n₀ n perm leaf₀ leaf data₀ data)
    (h0 : Shape K tf n₀ leaf₀) (hn : n ≤ trapframeVpn) :
    Space K root tf n₀ (clearRange leaf n₀ (n - n₀)) data ≤ Space K root tf n₀ leaf₀ data₀ := by
  have hle := h.le
  have h1 := trapframeVpn_eq
  have h2 := trampolineVpn_eq
  refine Space_congr (fun k hk => ?_) fun k hk => (h.old k hk).2
  rw [clearRange]
  split
  · exact (h0.rest k (by omega) hk (by omega) (by omega)).symm
  · by_cases hk0 : k < n₀
    · exact (h.old k hk0).1
    · exact h.above k (by omega)

/-- What uvmalloc leaves: the space it got, on failure, or the grown one. -/
def Allocated (K : Layout) (root tf n₀ perm newsz : Nat) (leaf₀ : Nat → Nat) (data₀ : Nat → Page) (r : Nat) : Own Nat Page :=
  if r = 0 then Space K root tf n₀ leaf₀ data₀
  else ex fun p : (Nat → Nat) × (Nat → Page) =>
    fact (r = newsz ∧ Grown n₀ (pagesBelow newsz) perm leaf₀ p.1 data₀ p.2) +
    Space K root tf (pagesBelow newsz) p.1 p.2

/-- One page more among the user pages. -/
theorem userPages_push {pg perm : Nat} {c : Page} (hpg : pg ∈ K.pages) (hperm : perm < 2 ^ 10) :
    userPages (n + 1) (Function.update leaf n (PA2PTE pg ||| perm)) (Function.update data n c) =
      userPages n leaf data + cell pg c := by
  obtain ⟨ha, -, hlt⟩ := Layout.mem_pages.mp hpg
  have hpa : PTE2PA (PA2PTE pg ||| perm) = pg := PTE2PA_or hperm ha (hlt.trans (by decide))
  rw [userPages_succ, Function.update_self, Function.update_self, hpa]
  refine congrArg (· + cell pg c) (userPages_congr (fun k hk => ?_) fun k hk => ?_)
  · rw [Function.update_of_ne (by omega)]
  · rw [Function.update_of_ne (by omega)]

theorem or_lt_flags {a b : Nat} (ha : a < 2 ^ 10) (hb : b < 2 ^ 10) : a ||| b < 2 ^ 10 := Nat.or_lt_two_pow ha hb

theorem pte_lt {pg perm : Nat} (hpg : pg < PHYSTOP) (hperm : perm < 2 ^ 10) : PA2PTE pg ||| perm < 2 ^ 64 := by
  have h2 : PHYSTOP = 2281701376 := rfl
  rw [PA2PTE_or hperm]
  omega

/-- Mapping a page after the user pages there are. -/
theorem map_page_spec {pg perm : Nat} {c : Page} (hperm : perm ||| PTE_V < 2 ^ 10) (hfree : leaf n = 0) :
    Triple (world K) (cell pg c + (PT 2 root leaf + userPages n leaf data)) (mappages root (n * PGSIZE) PGSIZE pg perm)
      fun r => if r = 0 then PT 2 root (Function.update leaf n (PA2PTE pg ||| (perm ||| PTE_V))) +
          userPages (n + 1) (Function.update leaf n (PA2PTE pg ||| (perm ||| PTE_V))) (Function.update data n c)
        else fact (r = -1) + (cell pg c + (PT 2 root leaf + userPages n leaf data)) := by
  refine .assume (φ := pg ∈ K.pages ∧ n ≤ 32768) (fun R s hs => ⟨?_, ?_⟩) fun ⟨hpg, hn⟩ => ?_
  · rw [add_assoc] at hs
    exact sat_cell_mem hs
  · rw [show cell pg c + (PT 2 root leaf + userPages n leaf data) + R =
      userPages n leaf data + (cell pg c + PT 2 root leaf + R) by abel] at hs
    exact sat_userPages_le hs
  have hva : n * PGSIZE / PGSIZE = n := Nat.mul_div_cancel _ (by decide)
  have hlt : n * PGSIZE < MAXVA := by
    rw [show MAXVA = 2 ^ 38 from rfl, show PGSIZE = 4096 from rfl]
    omega
  have hw : PA2PTE pg ||| perm ||| PTE_V < 2 ^ 64 := by
    rw [Nat.or_assoc]
    exact pte_lt (Layout.mem_pages.mp hpg).2.2 hperm
  have hmap : Triple (world K) (PT 2 root leaf) (mappages root (n * PGSIZE) PGSIZE pg perm) _ :=
    mappages_spec (Nat.mul_mod_left n PGSIZE) hlt (hva.symm ▸ hfree) hw
  rw [hva] at hmap
  refine (hmap.frame (cell pg c + userPages n leaf data)).conseq (le_of_eq (by abel)) fun r => ?_
  split
  · rw [Nat.or_assoc, userPages_push hpg hperm, add_comm (cell pg c)]
  · rw [add_assoc, add_left_comm (PT 2 root leaf)]

/-- Mapping a fresh page at the end of the space. -/
theorem map_next_spec {pg perm : Nat} {c : Page} (hperm : perm ||| PTE_V < 2 ^ 10) (hr : Flag (perm ||| PTE_V) PTE_R)
    (h : Shape K tf n leaf) :
    Triple (world K) (cell pg c + (PT 2 root leaf + userPages n leaf data)) (mappages root (n * PGSIZE) PGSIZE pg perm)
      fun r => if r = 0 then Space K root tf (n + 1) (Function.update leaf n (PA2PTE pg ||| (perm ||| PTE_V))) (Function.update data n c)
        else fact (r = -1) + (cell pg c + Space K root tf n leaf data) := by
  refine .assume (φ := n ≤ 32768) (fun R s hs => ?_) fun hn => ?_
  · rw [show cell pg c + (PT 2 root leaf + userPages n leaf data) + R =
      userPages n leaf data + (cell pg c + PT 2 root leaf + R) by abel] at hs
    exact sat_userPages_le hs
  have h1 := trapframeVpn_eq
  have h2 := trampolineVpn_eq
  have hv : Flag (perm ||| PTE_V) PTE_V := flag_or.mpr (.inr (by decide))
  have hv' : Flag (PA2PTE pg ||| (perm ||| PTE_V)) PTE_V := by rwa [Flag, or_and_flag hperm (by decide)]
  have hr' : Flag (PA2PTE pg ||| (perm ||| PTE_V)) PTE_R := by rwa [Flag, or_and_flag hperm (by decide)]
  refine (map_page_spec hperm (h.rest n le_rfl (by omega) (by omega) (by omega))).conseq le_rfl fun r => ?_
  split
  · exact le_fact_add (h.push (by omega) hv' hr') le_rfl
  · exact add_le_add_right (add_le_add_right (le_fact_add h le_rfl) _) _

theorem uvmallocLoop_spec {n₀ newsz xperm fuel : Nat} {leaf₀ : Nat → Nat} {data₀ : Nat → Page} (hx : xperm < 2 ^ 10)
    (h0 : Shape K tf n₀ leaf₀) (hg : Grown n₀ n (PTE_R ||| PTE_U ||| xperm ||| PTE_V) leaf₀ leaf data₀ data)
    (hn : n ≤ pagesBelow newsz) (hfuel : vaPages ≤ fuel + n) :
    Triple (world K) (Space K root tf n leaf data)
      (uvmallocLoop root (n₀ * PGSIZE) newsz xperm fuel (n * PGSIZE))
      (Allocated K root tf n₀ (PTE_R ||| PTE_U ||| xperm ||| PTE_V) newsz leaf₀ data₀) := by
  have hperm : PTE_R ||| PTE_U ||| xperm ||| PTE_V < 2 ^ 10 :=
    or_lt_flags (or_lt_flags (by decide) hx) (by decide)
  have hr : Flag (PTE_R ||| PTE_U ||| xperm ||| PTE_V) PTE_R := by
    simp only [flag_or]
    exact .inl (.inl (.inl (by decide)))
  induction fuel generalizing n leaf data with
  | zero =>
    refine .fact fun h => absurd h.fits ?_
    rw [trapframeVpn_eq, vaPages, show MAXVA / PGSIZE = 67108864 from rfl] at *
    omega
  | succ fuel ih =>
    refine .fact fun h => ?_
    have hcut : Triple (world K) (Space K root tf n leaf data) (uvmdealloc root (n * PGSIZE) (n₀ * PGSIZE) >>= fun _ => pure 0)
        (Allocated K root tf n₀ (PTE_R ||| PTE_U ||| xperm ||| PTE_V) newsz leaf₀ data₀) := by
      refine .bind (uvmdealloc_spec (pagesBelow_mul n).symm (Nat.mul_le_mul_right _ hg.le)) fun _ => .fact fun _ => .ret ?_
      rw [Allocated, if_pos rfl, pagesBelow_mul]
      exact hg.cut h0 h.fits
    have hnext : u64 (n * PGSIZE + PGSIZE) = (n + 1) * PGSIZE := by
      have := h.fits
      rw [trapframeVpn_eq] at this
      rw [u64, show PGSIZE = 4096 from rfl]
      omega
    rw [uvmallocLoop]
    split
    · next ha =>
      refine .seq kalloc_spec _ (zero_add _).symm.le fun mem => ?_
      split
      · rw [zero_add]
        exact hcut.conseq (le_fact_add h le_rfl) fun _ => le_rfl
      · refine .seq memset_spec _ le_rfl fun _ => .bind (map_next_spec hperm hr h) fun r => ?_
        by_cases hr0 : r = 0
        · rw [if_pos hr0, if_neg (not_not.mpr hr0), hnext]
          have hnlt : n < pagesBelow newsz := lt_pagesBelow.mpr ha
          exact ih (hg.push (PTE_FLAGS_or hperm)) hnlt (by omega)
        · rw [if_neg hr0, if_pos hr0]
          refine .fact fun _ => .seq kfree_spec _ (add_le_add_left cell_le_page _) fun _ => ?_
          rw [zero_add]
          exact hcut
    · next ha =>
      have he : pagesBelow newsz = n := by
        rw [← lt_pagesBelow] at ha
        omega
      refine .ret ?_
      rw [Allocated]
      split
      · next h0' =>
        rw [h0', show pagesBelow 0 = 0 from rfl] at he
        have hn₀ : n₀ = n := by have := hg.le; omega
        have hback : Space K root tf n₀ (clearRange leaf n₀ (n - n₀)) data ≤ Space K root tf n₀ leaf₀ data₀ :=
          hg.cut h0 h.fits
        rw [hn₀, Nat.sub_self, clearRange_zero, ← hn₀] at hback
        exact (le_fact_add (hn₀ ▸ h) (hn₀ ▸ le_rfl)).trans hback
      · refine le_ex (leaf, data) (le_fact_add ⟨rfl, he ▸ hg⟩ ?_)
        rw [he]
        exact le_fact_add h le_rfl

theorem PGROUNDUP_small {sz : Nat} (h : pagesBelow sz ≤ trapframeVpn) : PGROUNDUP sz = pagesBelow sz * PGSIZE := by
  have := le_pagesBelow_mul sz
  rw [trapframeVpn_eq] at h
  rw [PGROUNDUP_eq]
  rw [show PGSIZE = 4096 from rfl] at *
  omega

theorem uvmalloc_spec {oldsz newsz xperm : Nat} (hx : xperm < 2 ^ 10) (hn : n = pagesBelow oldsz) (hle : oldsz ≤ newsz) :
    Triple (world K) (Space K root tf n leaf data) (uvmalloc root oldsz newsz xperm)
      (Allocated K root tf n (PTE_R ||| PTE_U ||| xperm ||| PTE_V) newsz leaf data) := by
  refine .fact fun h => ?_
  rw [uvmalloc, if_neg (by omega), PGROUNDUP_small (hn ▸ h.fits), ← hn]
  refine (uvmallocLoop_spec hx h .refl ?_ (by omega)).conseq (le_fact_add h le_rfl) fun _ => le_rfl
  rw [hn]
  exact pagesBelow_mono hle

/-! ## Creating and freeing -/

/-- uvmfree returns the user pages and all tables, when nothing but user pages is mapped. -/
theorem uvmfree_spec {sz : Nat} (hn : n = pagesBelow sz) (hf : n ≤ trapframeVpn) (hmap : ∀ k < n, Maps (leaf k))
    (hrest : ∀ k, n ≤ k → k < 512 ^ 3 → leaf k = 0) :
    Triple (world K) (PT 2 root leaf + userPages n leaf data) (uvmfree root sz) fun _ => 0 := by
  refine .bind (Q := fun _ => PT 2 root (clearRange leaf 0 n)) (.when (fun _ => ?_) fun h => ?_) fun _ => ?_
  · have hmax : (0 + n) * PGSIZE ≤ MAXVA := by
      rw [trapframeVpn_eq] at hf
      rw [show MAXVA = 2 ^ 38 from rfl, show PGSIZE = 4096 from rfl]
      omega
    have hmaps : ∀ k, 0 ≤ k → k < 0 + n → Maps (leaf k) := fun k _ hk => hmap k (by omega)
    rw [PGROUNDUP_small (hn ▸ hf), ← hn, Nat.mul_div_cancel _ (by decide), ← Nat.zero_mul PGSIZE]
    refine (uvmunmap_spec hmax hmaps).conseq (add_le_add_right ?_ _) fun _ => le_rfl
    rw [zero_add]
    exact Finset.sum_le_sum fun k _ => cell_le_page
  · have h0 : n = 0 := by
      rw [hn, show sz = 0 by omega]
      rfl
    subst h0
    rw [clearRange_zero]
    exact (add_zero _).le
  · refine freewalkFrom_spec fun k hk => ?_
    rw [clearRange]
    split
    · rfl
    · exact hrest k (by omega) hk

theorem maps_of_flags {pa perm : Nat} (hp : perm < 2 ^ 10) (hv : Flag perm PTE_V) (hne : perm ≠ PTE_V) :
    Maps (PA2PTE pa ||| perm) :=
  ⟨by rwa [Flag, or_and_flag hp (by decide)], by rwa [PTE_FLAGS_or hp]⟩

theorem maps_trampoline (K : Layout) : Maps K.trampolinePte := by
  rw [Layout.trampolinePte, Nat.or_assoc]
  exact maps_of_flags (by decide) (by decide) (by decide)

theorem maps_trapframe (tf : Nat) : Maps (trapframePte tf) := by
  rw [trapframePte, Nat.or_assoc]
  exact maps_of_flags (by decide) (by decide) (by decide)

/-- Unmapping one page without freeing it. -/
theorem unmap_one_spec {v0 : Nat} (hv : v0 * PGSIZE < MAXVA) (hmap : Maps (leaf v0)) :
    Triple (world K) (PT 2 root leaf) (uvmunmap root (v0 * PGSIZE) 1 false)
      fun _ => PT 2 root (Function.update leaf v0 0) := by
  have hmax : (v0 + 1) * PGSIZE ≤ MAXVA := by
    rw [show MAXVA = 2 ^ 38 from rfl, show PGSIZE = 4096 from rfl] at *
    omega
  have hmaps : ∀ k, v0 ≤ k → k < v0 + 1 → Maps (leaf k) := fun k h1 h2 => by
    rwa [show k = v0 by omega]
  refine (uvmunmap_spec hmax hmaps).conseq ?_ fun _ => le_of_eq (congrArg (PT 2 root) ?_)
  · simp
  · funext k
    simp only [clearRange, Function.update_apply]
    split_ifs <;> first | rfl | omega

/-- A process's page table is freed with the user memory it maps. -/
theorem procFreepagetable_spec {sz : Nat} (hn : n = pagesBelow sz) :
    Triple (world K) (Space K root tf n leaf data) (procFreepagetable root sz) fun _ => 0 := by
  refine .fact fun h => ?_
  have hf := h.fits
  have h1 := trapframeVpn_eq
  have h2 := trampolineVpn_eq
  have htr : Maps (leaf trampolineVpn) := h.trampoline ▸ maps_trampoline K
  have htf : Maps (Function.update leaf trampolineVpn 0 trapframeVpn) := by
    rw [Function.update_of_ne (by omega), h.trapframe]
    exact maps_trapframe tf
  have hpages : userPages n leaf data =
      userPages n (Function.update (Function.update leaf trampolineVpn 0) trapframeVpn 0) data := by
    refine userPages_congr (fun k hk => ?_) fun _ _ => rfl
    rw [Function.update_of_ne (by omega), Function.update_of_ne (by omega)]
  rw [procFreepagetable, show TRAMPOLINE = trampolineVpn * PGSIZE from rfl, show TRAPFRAME = trapframeVpn * PGSIZE from rfl]
  refine .seq (unmap_one_spec (by decide) htr) _ le_rfl fun _ => .seq (unmap_one_spec (by decide) htf) _ le_rfl fun _ => ?_
  rw [hpages]
  refine uvmfree_spec hn hf (fun k hk => ?_) fun k hk hlt => ?_
  · rw [Function.update_of_ne (by omega), Function.update_of_ne (by omega)]
    exact h.maps hk
  · simp only [Function.update_apply]
    split_ifs with ht htr'
    · rfl
    · rfl
    · exact h.rest k hk hlt ht htr'

theorem trampoline_spec : Triple (world K) 0 trampoline fun t => fact (t = K.trampoline) := by
  intro R s hs
  refine ⟨K.trampoline, s, ?_, ?_⟩
  · rw [trampoline, (sat_iff.mp hs).1]
  · beta_reduce
    rwa [fact_of rfl]

theorem uvmcreate_spec : Triple (world K) 0 uvmcreate fun r => if r = 0 then 0 else PT 2 r fun _ => 0 := by
  refine .bind kalloc_spec fun pg => ?_
  split
  · exact .ret (by rw [if_pos rfl])
  · next h =>
    refine .bind memset_spec fun _ => .ret ?_
    rw [if_neg h]
    exact zero_le_PT

/-- An empty table is freed whole. -/
theorem uvmfree_empty_spec (h : ∀ k < 512 ^ 3, leaf k = 0) :
    Triple (world K) (PT 2 root leaf) (uvmfree root 0) fun _ => 0 := by
  have hpages : userPages 0 leaf (fun _ => Buffer.fill 0) = 0 := Finset.sum_empty
  rw [← add_zero (PT 2 root leaf), ← hpages]
  exact uvmfree_spec rfl (Nat.zero_le _) (fun k hk => absurd hk (Nat.not_lt_zero k)) fun k _ hk => h k hk

/-- The shape of a space without user pages. -/
theorem shape_empty : Shape K tf 0
    (Function.update (Function.update (fun _ => 0) trampolineVpn K.trampolinePte) trapframeVpn (trapframePte tf)) where
  fits := Nat.zero_le _
  user k hk := absurd hk (Nat.not_lt_zero k)
  trapframe := Function.update_self ..
  trampoline := by rw [Function.update_of_ne (by decide), Function.update_self]
  rest k _ _ h1 h2 := by rw [Function.update_of_ne h1, Function.update_of_ne h2]

/-- A fresh page table with the trapframe page and the trampoline, or nothing. -/
theorem procPagetable_spec (htf : tf ∈ K.pages) :
    Triple (world K) 0 (procPagetable tf) fun r =>
      if r = 0 then 0 else ex fun leaf => Space K r tf 0 leaf fun _ => Buffer.fill 0 := by
  have h1 := trapframeVpn_eq
  have h2 := trampolineVpn_eq
  have htr : K.trampoline < PHYSTOP := K.trampoline_lt.trans_le K.kend_le
  have hp1 : (PTE_R ||| PTE_X) ||| PTE_V < 2 ^ 10 := by decide
  have hp2 : (PTE_R ||| PTE_W) ||| PTE_V < 2 ^ 10 := by decide
  rw [procPagetable]
  refine .bind uvmcreate_spec fun root => ?_
  split
  · exact .ret (by rw [if_pos rfl])
  next hroot =>
  refine .seq trampoline_spec _ (zero_add _).symm.le fun t => .fact fun ht => ?_
  subst ht
  refine .bind (mappages_spec rfl (by decide) rfl ?_) fun r => ?_
  · rw [Nat.or_assoc]
    exact pte_lt htr hp1
  by_cases hr : r = 0
  · rw [if_pos hr, if_neg (by omega), ← Layout.trampolinePte]
    refine .bind (mappages_spec rfl (by decide) ?_ ?_) fun r => ?_
    · exact Function.update_of_ne (by decide) _ _
    · rw [Nat.or_assoc]
      exact pte_lt (Layout.mem_pages.mp htf).2.2 hp2
    by_cases hr : r = 0
    · rw [if_pos hr, if_neg (by omega), ← trapframePte]
      refine .ret ?_
      rw [if_neg hroot]
      refine le_ex _ (le_fact_add shape_empty ?_)
      rw [userPages, Finset.Ico_self, Finset.sum_empty, add_zero]
      exact le_rfl
    · rw [if_neg hr]
      refine .fact fun hr' => ?_
      rw [if_pos (by omega), show TRAMPOLINE = trampolineVpn * PGSIZE from rfl]
      refine .bind (unmap_one_spec (by decide) ?_) fun _ => .bind (uvmfree_empty_spec fun k _ => ?_) fun _ => .ret ?_
      · rw [show trampolineVpn * PGSIZE / PGSIZE = trampolineVpn from rfl, Function.update_self]
        exact maps_trampoline K
      · rw [show trampolineVpn * PGSIZE / PGSIZE = trampolineVpn from rfl, Function.update_idem, Function.update_apply]
        split <;> rfl
      · rw [if_pos rfl]
  · rw [if_neg hr]
    refine .fact fun hr' => ?_
    rw [if_pos (by omega)]
    refine .bind (uvmfree_empty_spec fun _ _ => rfl) fun _ => .ret ?_
    rw [if_pos rfl]

end Xv6
