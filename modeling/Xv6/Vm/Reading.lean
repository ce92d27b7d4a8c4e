/-
What a page table and the free list are, read off the memory itself: the pages of the
free list from its head, the tables under a page table root, the entry of a virtual page
and the pages behind the entries. Whatever an assertion owns, it owns as memory shows it
(`holds_PT`, `holds_space`, `holds_freeChain`).
-/
import Xv6.Vm.UserCopy

namespace Xv6

open Lib Lib.Own Mem

/-! ## Reading memory -/

/-- Entry `i` of the table in page `pg`. -/
def entryAt (ram : Nat → Page) (pg i : Nat) : Nat := (ram pg).getLE (8 * i) 8

/-- The pages of the free list, at most `k` of them. -/
def freePages (ram : Nat → Page) : Nat → Nat → List Nat
  | 0, _ => []
  | k + 1, pg => if pg = 0 then [] else pg :: freePages ram k (entryAt ram pg 0)

/-- The tables under the one in `pg`, by the test of freewalk. -/
def tablePages (ram : Nat → Page) : Nat → Nat → List Nat
  | 0, pg => [pg]
  | l + 1, pg => pg :: (List.range 512).flatMap fun i =>
    let pte := entryAt ram pg i
    if Flag pte PTE_V ∧ ¬ Flag pte (PTE_R ||| PTE_W ||| PTE_X) then tablePages ram l (PTE2PA pte) else []

/-- The entry of page `n` under the table in `pg`, as walk() finds it; 0 if there is none. -/
def leafAt (ram : Nat → Page) : Nat → Nat → Nat → Nat
  | 0, pg, n => entryAt ram pg n
  | l + 1, pg, n =>
    let pte := entryAt ram pg (n / 512 ^ (l + 1))
    if Flag pte PTE_V then leafAt ram l (PTE2PA pte) (n % 512 ^ (l + 1)) else 0

/-- The places under a root table. -/
@[irreducible] def vpns : Finset Nat := Finset.range (512 ^ 3)

/-- The virtual pages a root table maps, besides the two every process has. -/
def userVpns (ram : Nat → Page) (root : Nat) : Finset Nat :=
  vpns.filter fun n => n ≠ TRAMPOLINE / PGSIZE ∧ n ≠ TRAPFRAME / PGSIZE ∧ Flag (leafAt ram 2 root n) PTE_V

/-- The physical pages behind them, one occurrence for each mapping. -/
def mappedPages (ram : Nat → Page) (root : Nat) : Multiset Nat :=
  (userVpns ram root).val.map fun n => PTE2PA (leafAt ram 2 root n)

variable {K : Layout} {ram : Nat → Page} {S : Multiset Nat} {l pg : Nat} {leaf : Nat → Nat} {data : Nat → Page}

/-! ## Assertions and the pages they own -/

theorem holds_table {w : Nat → Nat} (h : (table pg w).holds ram S) : S = {pg} ∧ ∀ i < 512, entryAt ram pg i = w i := by
  obtain ⟨c, hc⟩ := h
  rw [holds_fact_add] at hc
  obtain ⟨hw, rfl, rfl⟩ := hc
  exact ⟨rfl, hw⟩

theorem holds_PT_mem (h : (PT l pg leaf).holds ram S) : pg ∈ S := by
  cases l with
  | zero =>
    rw [(holds_table h).1]
    exact Multiset.mem_singleton_self pg
  | succ l =>
    obtain ⟨kids, S₁, S₂, rfl, h₁, -⟩ := h
    rw [(holds_table h₁).1]
    exact Multiset.mem_add.mpr (.inl (Multiset.mem_singleton_self pg))

theorem sum_entries_coe (f : Nat → List Nat) : ∑ i ∈ entries, (f i : Multiset Nat) = (List.range 512).flatMap f := by
  rw [entries, Finset.sum_eq_multiset_sum, Finset.range_val, ← Multiset.coe_range, ← Multiset.coe_bind]
  rfl

/-- **A table's assertion owns the tables memory has under it**, and its leaves are the entries memory has. -/
theorem holds_PT (h : (PT l pg leaf).holds ram S) (hS : ∀ x ∈ S, x ∈ K.pages) :
    S = tablePages ram l pg ∧ ∀ n < 512 ^ (l + 1), leafAt ram l pg n = leaf n := by
  induction l generalizing pg leaf S with
  | zero =>
    obtain ⟨h1, h2⟩ := holds_table h
    exact ⟨h1, fun n hn => h2 n (by simpa using hn)⟩
  | succ l ih =>
    obtain ⟨kids, S₁, S₂, rfl, h₁, h₂⟩ := h
    obtain ⟨rfl, hw⟩ := holds_table h₁
    have hS₂ : ∀ x ∈ S₂, x ∈ K.pages := fun x hx => hS x (Multiset.mem_add.mpr (.inr hx))
    have hchild {i : Nat} {S' : Multiset Nat} (hk : kids i ≠ 0) (hc : (child (PT l) l leaf i (kids i)).holds ram S')
        (hS' : ∀ x ∈ S', x ∈ K.pages) : kids i ∈ K.pages ∧ S' = tablePages ram l (kids i) ∧
          ∀ n < 512 ^ (l + 1), leafAt ram l (kids i) n = slice l leaf i n := by
      rw [child, if_neg hk] at hc
      exact ⟨hS' _ (holds_PT_mem hc), ih hc hS'⟩
    have hfoot : Footprint ram {x | x ∈ K.pages} (∑ i ∈ entries, child (PT l) l leaf i (kids i))
        (∑ i ∈ entries, (if kids i = 0 then [] else tablePages ram l (kids i) : List Nat)) := by
      refine .sum fun i _ S' hS' hc => ?_
      split
      · next hk =>
        rw [child, if_pos hk] at hc
        exact hc.1
      · next hk => exact (hchild hk hc hS').2.1
    have hkid {i : Nat} (hi : i < 512) (hk : kids i ≠ 0) : PTE2PA (dirEntry (kids i)) = kids i ∧
        ∀ n < 512 ^ (l + 1), leafAt ram l (kids i) n = slice l leaf i n := by
      obtain ⟨S', hle, hc⟩ := holds_of_mem_sum h₂ (mem_entries.mpr hi)
      obtain ⟨hmem, -, hleaf⟩ := hchild hk hc fun x hx => hS₂ x (Multiset.mem_of_le hle hx)
      exact ⟨PTE2PA_dirEntry hmem, hleaf⟩
    have hdir (kid : Nat) : (Flag (dirEntry kid) PTE_V ∧ ¬ Flag (dirEntry kid) (PTE_R ||| PTE_W ||| PTE_X)) ↔ kid ≠ 0 :=
      ⟨fun hf hk => hf.1 (by rw [dirEntry, if_pos hk, Nat.zero_and]), fun hk =>
        ⟨dirEntry_valid hk, fun hf => hf (dirEntry_dir kid)⟩⟩
    refine ⟨?_, fun n hn => ?_⟩
    · rw [hfoot S₂ hS₂ h₂, sum_entries_coe, tablePages, ← Multiset.cons_coe, Multiset.singleton_add]
      refine congrArg _ (congrArg _ (List.flatMap_congr fun i hi => ?_))
      have hi := List.mem_range.mp hi
      dsimp only
      rw [hw i hi]
      by_cases hk : kids i = 0
      · rw [if_pos hk, if_neg fun hf => (hdir (kids i)).mp hf hk]
      · rw [if_neg hk, if_pos ((hdir (kids i)).mpr hk), (hkid hi hk).1]
    · have hi : n / 512 ^ (l + 1) < 512 := by
        rw [Nat.div_lt_iff_lt_mul (by positivity)]
        calc n < 512 ^ (l + 1 + 1) := hn
          _ = 512 * 512 ^ (l + 1) := by ring
      have hmod : n % 512 ^ (l + 1) < 512 ^ (l + 1) := Nat.mod_lt _ (by positivity)
      have hn' : leaf n = slice l leaf (n / 512 ^ (l + 1)) (n % 512 ^ (l + 1)) := by
        rw [slice, Nat.div_add_mod']
      rw [leafAt, hw _ hi, hn']
      by_cases hk : kids (n / 512 ^ (l + 1)) = 0
      · rw [dirEntry, if_pos hk, if_neg (by simp [Flag])]
        obtain ⟨S', -, hc⟩ := holds_of_mem_sum h₂ (mem_entries.mpr hi)
        rw [child, if_pos hk] at hc
        exact (hc.2 _ hmod).symm
      · obtain ⟨hpa, hleaf⟩ := hkid hi hk
        rw [if_pos (dirEntry_valid hk), hpa, hleaf _ hmod]

theorem mem_vpns {n : Nat} : n ∈ vpns ↔ n < 512 ^ 3 := by
  rw [vpns, Finset.mem_range]

theorem mem_mappedPages {root n : Nat} (h : n ∈ userVpns ram root) : PTE2PA (leafAt ram 2 root n) ∈ mappedPages ram root :=
  Multiset.mem_map_of_mem _ h

theorem holds_page (h : (page pg).holds ram S) : S = {pg} := by
  obtain ⟨c, rfl, -⟩ := h
  rfl

theorem userVpns_eq {root tf n : Nat} (h : Shape K tf n (leafAt ram 2 root)) : userVpns ram root = Finset.range n := by
  have h1 := trapframeVpn_eq
  have h2 := trampolineVpn_eq
  have hf := h.fits
  ext k
  rw [userVpns, Finset.mem_filter, mem_vpns, Finset.mem_range]
  constructor
  · rintro ⟨hk, htr, htf, hv⟩
    by_contra hge
    rw [h.rest k (by omega) hk htf htr] at hv
    exact hv (Nat.zero_and _)
  · intro hk
    refine ⟨by omega, fun he => ?_, fun he => ?_, (h.user k hk).1⟩
    · change k = trampolineVpn at he
      omega
    · change k = trapframeVpn at he
      omega

theorem sum_singleton {ι : Type} (s : Finset ι) (f : ι → Nat) : ∑ k ∈ s, ({f k} : Multiset Nat) = s.val.map f := by
  rw [Finset.sum_eq_multiset_sum, ← Multiset.sum_map_singleton (s.val.map f), Multiset.map_map]
  rfl

/-- **An address space owns the tables and pages memory has under its root**, and memory shows its shape. -/
theorem holds_space {root tf n : Nat} (h : (Space K root tf n leaf data).holds ram S) (hS : ∀ x ∈ S, x ∈ K.pages) :
    S = tablePages ram 2 root + mappedPages ram root ∧ Shape K tf n (leafAt ram 2 root) := by
  rw [Space, holds_fact_add] at h
  obtain ⟨hshape, S₁, S₂, rfl, h₁, h₂⟩ := h
  obtain ⟨rfl, hleaf⟩ := holds_PT h₁ fun x hx => hS x (Multiset.mem_add.mpr (.inl hx))
  have hshape' : Shape K tf n (leafAt ram 2 root) := by
    have hf := hshape.fits
    have h1 := trapframeVpn_eq
    have h2 := trampolineVpn_eq
    have hl (k : Nat) (hk : k < 512 ^ 3) : leafAt ram 2 root k = leaf k := hleaf k hk
    constructor
    · exact hf
    · intro k hk
      rw [hl k (by omega)]
      exact hshape.user k hk
    · rw [hl _ (by omega), hshape.trapframe]
    · rw [hl _ (by omega), hshape.trampoline]
    · intro k hnk hk
      rw [hl k hk]
      exact hshape.rest k hnk hk
  refine ⟨congrArg _ ?_, hshape'⟩
  have hfoot : Footprint ram {x | x ∈ K.pages} (userPages n leaf data) (∑ k ∈ Finset.Ico 0 n, {PTE2PA (leaf k)}) :=
    .sum fun k _ => .cell
  rw [hfoot S₂ (fun x hx => hS x (Multiset.mem_add.mpr (.inr hx))) h₂, sum_singleton, mappedPages, userVpns_eq hshape',
    ← Finset.range_eq_Ico]
  refine Multiset.map_congr rfl fun k hk => ?_
  have hk : k < n := Finset.mem_range.mp hk
  have hf := hshape.fits
  rw [hleaf k (by rw [trapframeVpn_eq] at hf; omega)]

theorem holds_freeChain {head : Nat} {fl : List Nat} (h : (freeChain head fl).holds ram S) (hS : ∀ x ∈ S, x ∈ K.pages) :
    S = fl ∧ ∀ k, fl.length < k → freePages ram k head = fl := by
  induction fl generalizing head S with
  | nil =>
    obtain ⟨rfl, rfl⟩ := h
    refine ⟨rfl, fun k hk => ?_⟩
    obtain ⟨k, rfl⟩ := Nat.exists_eq_succ_of_ne_zero (Nat.ne_zero_of_lt hk)
    rw [freePages, if_pos rfl]
  | cons pg fl ih =>
    rw [freeChain, holds_fact_add] at h
    obtain ⟨rfl, c, S₁, S₂, rfl, ⟨rfl, hc⟩, h₂⟩ := h
    obtain ⟨rfl, hfree⟩ := ih h₂ fun x hx => hS x (Multiset.mem_add.mpr (.inr hx))
    have hne : head ≠ 0 := Layout.ne_zero_of_mem (hS head (Multiset.mem_add.mpr (.inl (Multiset.mem_singleton_self head))))
    refine ⟨rfl, fun k hk => ?_⟩
    obtain ⟨k, rfl⟩ := Nat.exists_eq_succ_of_ne_zero (Nat.ne_zero_of_lt hk)
    rw [freePages, if_neg hne]
    refine congrArg _ ?_
    have he : entryAt ram head 0 = c.getLE 0 8 := by rw [entryAt, hc]
    rw [he]
    exact hfree k (by simpa using hk)

theorem length_pages_le (K : Layout) : K.pages.length ≤ PHYSTOP / PGSIZE := by
  rw [Layout.pages, List.length_map, List.length_range]
  exact Nat.div_le_div_right (Nat.sub_le _ _)

/-- **Beside the free list, an assertion owns the rest of memory.** -/
theorem sat_split {m : Mem} {P : Own Nat Page} (h : (world K).Sat m P) :
    ∃ T, (K.pages : Multiset Nat) = freePages m.ram (PHYSTOP / PGSIZE + 1) m.freelist + T ∧ (∀ x ∈ T, x ∈ K.pages) ∧
      P.holds m.ram T := by
  obtain ⟨-, fl, S₁, T, hT, h₁, h₂⟩ := sat_iff.mp h
  have hsub : ∀ x ∈ S₁ + T, x ∈ K.pages := fun x hx => by rwa [← Multiset.mem_coe, hT]
  simp only [Multiset.mem_add, or_imp, forall_and] at hsub
  obtain ⟨rfl, hfree⟩ := holds_freeChain h₁ hsub.1
  have hlen : fl.length < PHYSTOP / PGSIZE + 1 := by
    have hle := congrArg Multiset.card hT
    rw [Multiset.coe_card, Multiset.card_add, Multiset.coe_card] at hle
    have := length_pages_le K
    omega
  rw [hfree _ hlen]
  exact ⟨T, hT, hsub.2, h₂⟩

end Xv6
