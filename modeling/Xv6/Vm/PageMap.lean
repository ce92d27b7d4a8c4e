/-
A page table is a finite map. Whatever mappages, uvmunmap, uvmclear and walk did to a
table that came from uvmcreate, memory read from its root is a map from page-aligned
virtual addresses below MAXVA to physical pages and flags; walkaddr looks an address up
in it, each call changes it where the call points and nowhere else, and once it is empty
freewalk gives back every table page (`pagetable_is_map`).

The calls may panic, so their rules here are about the calls that return. Allocations fail
as the memory's `fails` has them, and between two calls the rest of the kernel does with
the other pages what it likes (`Built.others`), so what kalloc hands out is any page that
is not in use.
-/
import Xv6.Vm.Reading

namespace Xv6

open Lib Lib.Own Mem

/-! ## The map -/

/-- An entry as what it maps to: the physical page and the flags. -/
def mapping (pte : Nat) : Option (Nat × Nat) := if Flag pte PTE_V then some (PTE2PA pte, PTE_FLAGS pte) else none

/-- The map that entries for the virtual pages make, from page-aligned addresses below MAXVA. -/
def mapOf (leaf : Nat → Nat) (va : Nat) : Option (Nat × Nat) :=
  if va % PGSIZE = 0 ∧ va < MAXVA then mapping (leaf (va / PGSIZE)) else none

/-- The map memory has under `root`. -/
def pageMap (ram : Nat → Page) (root : Nat) : Nat → Option (Nat × Nat) := mapOf (leafAt ram 2 root)

/-- What walkaddr is to return for `va` in the map `M`. -/
def userPage (M : Nat → Option (Nat × Nat)) (va : Nat) : Nat :=
  match M (PGROUNDDOWN va) with
  | some (pa, flags) => if Flag flags PTE_U then pa else 0
  | none => 0

/-- The free pages, from the head of the free list on. -/
def Mem.freeList (m : Mem) : List Nat := freePages m.ram (PHYSTOP / PGSIZE + 1) m.freelist

/-! ## The calls -/

inductive PtCall where
  | mappages (va size pa perm : Nat)
  | uvmunmap (va npages : Nat) (doFree : Bool)
  | uvmclear (va : Nat)
  | walk (va : Nat) (alloc : Bool)

namespace PtCall

/-- The call's arguments are uint64s; mappages maps one readable page, to a page-aligned non-zero address below 2^56. -/
def Valid : PtCall → Prop
  | mappages va size pa perm => va < 2 ^ 64 ∧ size < 2 ^ 64 ∧ PGROUNDDOWN (u64 (va + size - 1)) = PGROUNDDOWN va ∧
      pa % PGSIZE = 0 ∧ pa ≠ 0 ∧ pa < 2 ^ 56 ∧ perm < 2 ^ 64 ∧ Flag perm PTE_R
  | uvmunmap va npages _ => va < 2 ^ 64 ∧ npages < 2 ^ 64
  | uvmclear va => va < 2 ^ 64
  | walk va _ => va < 2 ^ 64

def run (root : Nat) : PtCall → Code Mem Int
  | mappages va size pa perm => Mem.mappages root va size pa perm
  | uvmunmap va npages doFree => do
    Mem.uvmunmap root va npages doFree
    return 0
  | uvmclear va => do
    Mem.uvmclear root va
    return 0
  | walk va alloc => do
    let pte ← Mem.walk root va alloc
    return pte

/-- What the call makes of the map when it returns `r`. -/
def effect (r : Int) (M : Nat → Option (Nat × Nat)) : PtCall → Nat → Option (Nat × Nat)
  | mappages va _ pa perm =>
    if r = 0 then Function.update M (PGROUNDDOWN va) (mapping (PA2PTE pa ||| perm ||| PTE_V)) else M
  | uvmunmap va npages _ => fun a => if va ≤ a ∧ a < u64 (va + npages * PGSIZE) then none else M a
  | uvmclear va => Function.update M (PGROUNDDOWN va)
      ((M (PGROUNDDOWN va)).map fun e => (e.1, e.2 &&& (2 ^ 64 - 1 - PTE_U)))
  | walk _ _ => M

/-- The pages a call gives to kfree. -/
def frees (m : Mem) (root : Nat) : PtCall → Multiset Nat
  | uvmunmap va npages true =>
    ∑ n ∈ Finset.Ico (va / PGSIZE) (u64 (va + npages * PGSIZE) / PGSIZE), {PTE2PA (leafAt m.ram 2 root n)}
  | _ => 0

/-- What the call frees is in use, and not as one of the table's own pages; else kalloc would come to hand out a page
that is in use. -/
def FreesInUse (K : Layout) (m : Mem) (root : Nat) (c : PtCall) : Prop :=
  m.freeList + (tablePages m.ram 2 root + c.frees m root) ≤ (K.pages : Multiset Nat)

end PtCall

/-! ## Rules for calls that return -/

variable {K : Layout} {root pg va : Nat} {m : Mem} {leaf : Nat → Nat} {R : Own Nat Page} {S T : Multiset Nat}

theorem walk_ensures {alloc : Bool} (hs : (world K).Sat m (PT 2 pg leaf + R)) :
    (walk pg va alloc).Ensures m fun pte m' =>
      va < MAXVA ∧ (world K).Sat m' (Walked 2 pg leaf (va / PGSIZE) alloc pte + R) := by
  by_cases h : va < MAXVA
  · exact (Code.Ensures.of_triple (walk_spec h alloc) hs).mono fun _ _ hw => ⟨h, hw⟩
  · rw [Mem.walk, if_pos (by omega)]
    exact .panic

theorem sat_of_walked {n r : Nat} {alloc : Bool} (h : (world K).Sat m (Walked 2 pg leaf n alloc r + R)) :
    (world K).Sat m (PT 2 pg leaf + R) := by
  refine h.mono (add_le_add_left ?_ R)
  rw [Walked]
  split
  · exact fact_add_le fun _ => le_rfl
  · exact slot_close.trans (by rw [Function.update_eq_self])

theorem mappages_ensures {size pa perm : Nat} (hone : PGROUNDDOWN (u64 (va + size - 1)) = PGROUNDDOWN va)
    (hw : PA2PTE pa ||| perm ||| PTE_V < 2 ^ 64) (hs : (world K).Sat m (PT 2 pg leaf + R)) :
    (mappages pg va size pa perm).Ensures m fun r m' => (r = 0 → va < MAXVA) ∧
      (world K).Sat m' (PT 2 pg
        (if r = 0 then Function.update leaf (va / PGSIZE) (PA2PTE pa ||| perm ||| PTE_V) else leaf) + R) := by
  have hdiv : PGROUNDDOWN va / PGSIZE = va / PGSIZE := Nat.mul_div_cancel _ (by decide)
  have hlt (h : PGROUNDDOWN va < MAXVA) : va < MAXVA := by
    simp only [PGROUNDDOWN, PGSIZE, show MAXVA = 2 ^ 38 from rfl] at h ⊢
    omega
  rw [mappages]
  split
  · exact .panic
  rw [hone, vaPages, mappagesLoop]
  refine .bind (walk_ensures hs) fun pte m1 h => ?_
  obtain ⟨hva, h1⟩ := h
  split
  · next h0 =>
    refine .pure ⟨fun h => absurd h (by decide), ?_⟩
    rw [if_neg (by decide)]
    exact sat_of_walked h1
  · next h0 =>
    rw [Walked, if_neg h0, hdiv] at h1
    refine .bind (.of_triple load_slot h1) fun v m2 h2 => ?_
    split
    · exact .panic
    · rw [add_assoc, World.sat_fact_add] at h2
      refine .bind (.of_triple (store_slot hw) h2.2) fun _ m3 h3 => ?_
      rw [if_pos rfl]
      exact .pure ⟨fun _ => hlt hva, by rwa [if_pos rfl]⟩

theorem uvmclear_ensures (hs : (world K).Sat m (PT 2 pg leaf + R)) :
    (uvmclear pg va).Ensures m fun _ m' => va < MAXVA ∧ leaf (va / PGSIZE) < 2 ^ 64 ∧ (world K).Sat m' (PT 2 pg
      (Function.update leaf (va / PGSIZE) (leaf (va / PGSIZE) &&& (2 ^ 64 - 1 - PTE_U))) + R) := by
  rw [uvmclear]
  refine .bind (walk_ensures hs) fun pte m1 h => ?_
  obtain ⟨hva, h1⟩ := h
  split
  · exact .panic
  · next h0 =>
    rw [Walked, if_neg h0] at h1
    refine .bind (.of_triple load_slot h1) fun v m2 h2 => ?_
    rw [add_assoc, World.sat_fact_add] at h2
    obtain ⟨rfl, h2⟩ := h2
    have hlt : leaf (va / PGSIZE) < 2 ^ 64 := by
      have h3 := h2.mono (add_le_add_left slot_value_lt R)
      rw [add_assoc, World.sat_fact_add] at h3
      exact h3.1
    exact (Code.Ensures.of_triple (store_slot (Nat.and_le_left.trans_lt hlt)) h2).mono fun _ _ h3 => ⟨hva, hlt, h3⟩

/-- What uvmunmap frees, or nothing. -/
def unmapped (leaf : Nat → Nat) (doFree : Bool) (v w : Nat) : Own Nat Page :=
  ∑ k ∈ Finset.Ico v w, if doFree then page (PTE2PA (leaf k)) else 0

theorem uvmunmapLoop_ensures (fuel : Nat) {v w : Nat} {doFree : Bool}
    (hs : (world K).Sat m (PT 2 pg leaf + (unmapped leaf doFree v w + R))) :
    (uvmunmapLoop pg (w * PGSIZE) doFree fuel (v * PGSIZE)).Ensures m fun _ m' =>
      (world K).Sat m' (PT 2 pg (clearRange leaf v (w - v)) + R) := by
  have hp : PGSIZE = 4096 := rfl
  have hm : MAXVA = 2 ^ 38 := rfl
  induction fuel generalizing v leaf m with
  | zero => exact .panic
  | succ fuel ih =>
    rw [uvmunmapLoop]
    split
    · next hlt =>
      have hvw : v < w := by rw [hp] at hlt; omega
      have hdiv : v * PGSIZE / PGSIZE = v := Nat.mul_div_cancel _ (by decide)
      rw [unmapped, Finset.sum_eq_sum_Ico_succ_bot hvw, add_assoc] at hs
      refine .bind (walk_ensures hs) fun pte m1 h => ?_
      obtain ⟨hva, h1⟩ := h
      split
      · exact .panic
      next h0 =>
      rw [Walked, if_neg h0, hdiv] at h1
      refine .bind (.of_triple load_slot h1) fun x m2 h2 => ?_
      split
      · exact .panic
      split
      · exact .panic
      rw [add_assoc, World.sat_fact_add] at h2
      obtain ⟨rfl, h2⟩ := h2
      have hfree : Triple (world K) (if doFree = true then page (PTE2PA (leaf v)) else 0)
          (Code.when (doFree = true) (kfree (PTE2PA (leaf v)))) fun _ => 0 :=
        .when (fun h => by rw [if_pos h]; exact kfree_spec) fun h => by rw [if_neg h]
      rw [add_left_comm] at h2
      refine .bind (.of_triple hfree h2) fun _ m3 h3 => ?_
      rw [zero_add] at h3
      refine .bind (.of_triple (store_slot (by decide)) h3) fun _ m4 h4 => ?_
      have hnext : u64 (v * PGSIZE + PGSIZE) = (v + 1) * PGSIZE := by
        rw [u64, hp] at *
        omega
      rw [hnext]
      have hrest : unmapped (Function.update leaf v 0) doFree (v + 1) w =
          ∑ k ∈ Finset.Ico (v + 1) w, if doFree then page (PTE2PA (leaf k)) else 0 := by
        refine Finset.sum_congr rfl fun k hk => ?_
        have := (Finset.mem_Ico.mp hk).1
        rw [Function.update_of_ne (by omega)]
      rw [← hrest] at h4
      have he : clearRange (Function.update leaf v 0) (v + 1) (w - (v + 1)) = clearRange leaf v (w - v) := by
        rw [clearRange_succ, show w - (v + 1) + 1 = w - v by omega]
      rw [← he]
      exact ih h4
    · next hge =>
      have hvw : w ≤ v := by rw [hp] at hge; omega
      rw [unmapped, Finset.Ico_eq_empty_of_le hvw, Finset.sum_empty, zero_add] at hs
      refine .pure ?_
      rwa [Nat.sub_eq_zero_of_le hvw, clearRange_zero]

/-! ## Pages and what they are used for -/

theorem owns_add : (owns (S + T) : Own Nat Page) = owns S + owns T := by
  refine ext_iff'.mpr fun m X => ⟨fun h => ⟨S, T, h, rfl, rfl⟩, ?_⟩
  rintro ⟨_, _, rfl, rfl, rfl⟩
  rfl

theorem owns_singleton : owns {pg} = page pg :=
  ext_iff'.mpr fun m _ => ⟨fun h => ⟨m pg, h, rfl⟩, fun h => holds_page h⟩

theorem owns_zero : (owns 0 : Own Nat Page) = 0 := ext_iff'.mpr fun _ _ => Iff.rfl

theorem owns_sum {ι : Type} [DecidableEq ι] (s : Finset ι) (f : ι → Nat) :
    owns (∑ i ∈ s, ({f i} : Multiset Nat)) = ∑ i ∈ s, page (f i) := by
  induction s using Finset.induction_on with
  | empty => exact owns_zero
  | insert a s ha ih => rw [Finset.sum_insert ha, Finset.sum_insert ha, owns_add, owns_singleton, ih]

/-! ## Entries and the map -/

theorem div_lt_of_lt (h : va < MAXVA) : va / PGSIZE < 512 ^ 3 := by
  rw [show MAXVA = 2 ^ 38 from rfl] at h
  rw [show PGSIZE = 4096 from rfl]
  omega

theorem mapOf_congr {f g : Nat → Nat} (h : ∀ n < 512 ^ 3, f n = g n) : mapOf f = mapOf g := by
  funext va
  unfold mapOf
  split
  · next hva => rw [h _ (div_lt_of_lt hva.2)]
  · rfl

theorem mapping_zero : mapping 0 = none := if_neg (by simp [Flag])

theorem mapping_clearU {w : Nat} (hw : w < 2 ^ 64) : mapping (w &&& (2 ^ 64 - 1 - PTE_U)) =
    (mapping w).map fun e => (e.1, e.2 &&& (2 ^ 64 - 1 - PTE_U)) := by
  simp only [mapping, Flag, clearU_flag (show (2 ^ 64 - 1 - PTE_U) &&& PTE_V = PTE_V by decide), PTE2PA_clearU hw]
  split
  · rw [Option.map_some, PTE_FLAGS, PTE_FLAGS, Nat.and_right_comm]
  · rfl

/-- The entry mappages writes maps to the page it was given, with the permissions it was given. -/
theorem mapping_pte {pa perm : Nat} (ha : pa % PGSIZE = 0) (hpa : pa < 2 ^ 56) (hp : perm < 2 ^ 10) :
    mapping (PA2PTE pa ||| perm ||| PTE_V) = some (pa, perm ||| PTE_V) := by
  have hf : perm ||| PTE_V < 2 ^ 10 := Nat.or_lt_two_pow hp (by decide)
  rw [mapping, if_pos (flag_or.mpr (.inr (by decide))), Nat.or_assoc, PTE2PA_or hf ha (hpa.trans (by decide)),
    PTE_FLAGS_or hf]

theorem PGROUNDDOWN_mod : PGROUNDDOWN va % PGSIZE = 0 := Nat.mul_mod_left _ _

theorem PGROUNDDOWN_div : PGROUNDDOWN va / PGSIZE = va / PGSIZE := Nat.mul_div_cancel _ (by decide)

theorem PGROUNDDOWN_lt_MAXVA : PGROUNDDOWN va < MAXVA ↔ va < MAXVA := by
  simp only [PGROUNDDOWN, PGSIZE, show MAXVA = 2 ^ 38 from rfl]
  omega

theorem mapOf_PGROUNDDOWN (h : va < MAXVA) : mapOf leaf (PGROUNDDOWN va) = mapping (leaf (va / PGSIZE)) := by
  rw [mapOf, if_pos ⟨PGROUNDDOWN_mod, PGROUNDDOWN_lt_MAXVA.mpr h⟩, PGROUNDDOWN_div]

theorem mapOf_update {w : Nat} (h : va < MAXVA) :
    mapOf (Function.update leaf (va / PGSIZE) w) = Function.update (mapOf leaf) (PGROUNDDOWN va) (mapping w) := by
  funext a
  by_cases ha : a = PGROUNDDOWN va
  · rw [ha, mapOf_PGROUNDDOWN h, Function.update_self, Function.update_self]
  · rw [Function.update_of_ne ha]
    unfold mapOf
    split
    · next hva =>
      rw [Function.update_of_ne]
      intro he
      refine ha ?_
      rw [PGROUNDDOWN, ← he, Nat.div_mul_cancel (Nat.dvd_of_mod_eq_zero hva.1)]
    · rfl

theorem mapOf_clearRange {v w : Nat} : mapOf (clearRange leaf v (w - v)) =
    fun a => if v * PGSIZE ≤ a ∧ a < w * PGSIZE then none else mapOf leaf a := by
  funext a
  unfold mapOf
  by_cases hva : a % PGSIZE = 0 ∧ a < MAXVA
  · have hin : (v ≤ a / PGSIZE ∧ a / PGSIZE < v + (w - v)) ↔ v * PGSIZE ≤ a ∧ a < w * PGSIZE := by
      have := hva.1
      simp only [show PGSIZE = 4096 from rfl] at this ⊢
      omega
    rw [if_pos hva, if_pos hva, clearRange]
    by_cases hr : v * PGSIZE ≤ a ∧ a < w * PGSIZE
    · rw [if_pos hr, if_pos (hin.mpr hr), mapping_zero]
    · rw [if_neg hr, if_neg (mt hin.mp hr)]
  · rw [if_neg hva, if_neg hva, ite_self]

/-! ## The table in memory -/

/-- The entries of a table: valid or 0, and valid below MAXVA only. -/
def Entries (leaf : Nat → Nat) : Prop := ∀ n < 512 ^ 3, leaf n ≠ 0 → Flag (leaf n) PTE_V ∧ n * PGSIZE < MAXVA

theorem Entries.update {n w : Nat} (h : Entries leaf) (hn : n * PGSIZE < MAXVA) (hw : w ≠ 0 → Flag w PTE_V) :
    Entries (Function.update leaf n w) := by
  intro k hk hne
  rw [Function.update_apply] at hne ⊢
  split at hne
  · next he =>
    rw [if_pos he, he]
    exact ⟨hw hne, hn⟩
  · next he =>
    rw [if_neg he]
    exact h k hk hne

theorem Entries.clearRange {v0 np : Nat} (h : Entries leaf) : Entries (clearRange leaf v0 np) := by
  intro k hk hne
  rw [Xv6.clearRange] at hne ⊢
  split at hne
  · exact absurd rfl hne
  · next he =>
    rw [if_neg he]
    exact h k hk hne

theorem Entries.eq_zero_of_mapping {n : Nat} (h : Entries leaf) (hn : n < 512 ^ 3)
    (he : mapOf leaf (n * PGSIZE) = none) : leaf n = 0 := by
  by_contra hne
  obtain ⟨hv, hlt⟩ := h n hn hne
  rw [mapOf, if_pos ⟨Nat.mul_mod_left _ _, hlt⟩, Nat.mul_div_cancel _ (by decide), mapping, if_pos hv] at he
  cases he

/-- Memory `m` has a page table under `root`; the pages `S` are in use for something else, the rest is free. -/
structure Pagetable (K : Layout) (root : Nat) (m : Mem) (S : Multiset Nat) : Prop where
  sat : (world K).Sat m (PT 2 root (leafAt m.ram 2 root) + owns S)
  entries : Entries (leafAt m.ram 2 root)

theorem Pagetable.of_sat (hs : (world K).Sat m (PT 2 root leaf + owns S)) (he : Entries leaf) :
    Pagetable K root m S ∧ pageMap m.ram root = mapOf leaf := by
  obtain ⟨T, -, hsub, S₁, S₂, rfl, h₁, -⟩ := sat_split hs
  have hleaf : ∀ n < 512 ^ 3, leafAt m.ram 2 root n = leaf n :=
    (holds_PT h₁ fun x hx => hsub x (Multiset.mem_add.mpr (.inl hx))).2
  refine ⟨⟨hs.mono (add_le_add_left (PT_congr fun n hn => (hleaf n hn).symm) _), fun n hn => ?_⟩, mapOf_congr hleaf⟩
  rw [hleaf n hn]
  exact he n hn

/-- **Every page is free, a table, or in use for something else.** -/
theorem Pagetable.pages (h : Pagetable K root m S) : (K.pages : Multiset Nat) =
    m.freeList + (tablePages m.ram 2 root + S) := by
  obtain ⟨T, hT, hsub, S₁, S₂, rfl, h₁, rfl⟩ := sat_split h.sat
  rw [hT, (holds_PT h₁ fun x hx => hsub x (Multiset.mem_add.mpr (.inl hx))).1]
  rfl

/-- The rest of the kernel works on other pages. -/
theorem Pagetable.others {m' : Mem} (h : Pagetable K root m S) (hs : (world K).Sat m' (owns T))
    (hle : (tablePages m.ram 2 root : Multiset Nat) ≤ T) (hram : ∀ pg ∈ tablePages m.ram 2 root, m'.ram pg = m.ram pg) :
    Pagetable K root m' (T - tablePages m.ram 2 root) ∧ pageMap m'.ram root = pageMap m.ram root := by
  refine Pagetable.of_sat ?_ h.entries
  obtain ⟨T₀, -, hsub, S₁, S₂, rfl, h₁, -⟩ := sat_split h.sat
  obtain rfl := (holds_PT h₁ fun x hx => hsub x (Multiset.mem_add.mpr (.inl hx))).1
  rw [← add_tsub_cancel_of_le hle, owns_add] at hs
  obtain ⟨U, U', hU, hr, _, _, rfl, rfl, rfl⟩ := hs
  refine ⟨U, _, hU, hr, _, _, rfl, (PT 2 root _).reads (fun pg hpg => ?_) h₁, rfl⟩
  exact (hram pg (Multiset.mem_coe.mp hpg)).symm

/-- **What a call that returns does to the map.** -/
theorem PtCall.run_ensures {c : PtCall} (h : Pagetable K root m S) (hc : c.Valid) (hf : c.frees m root ≤ S) :
    (c.run root).Ensures m fun r m' =>
      (∃ S', Pagetable K root m' S') ∧ pageMap m'.ram root = c.effect r (pageMap m.ram root) := by
  have done {m' : Mem} {leaf : Nat → Nat} {S' : Multiset Nat} {M : Nat → Option (Nat × Nat)}
      (hs : (world K).Sat m' (PT 2 root leaf + owns S')) (he : Entries leaf) (hM : mapOf leaf = M) :
      (∃ S', Pagetable K root m' S') ∧ pageMap m'.ram root = M :=
    ⟨⟨S', (Pagetable.of_sat hs he).1⟩, (Pagetable.of_sat hs he).2.trans hM⟩
  have hpage (va : Nat) (hva : va < MAXVA) : va / PGSIZE * PGSIZE < MAXVA :=
    (Nat.div_mul_le_self va PGSIZE).trans_lt hva
  cases c with
  | mappages va size pa perm =>
    obtain ⟨hva, -, hone, -, -, hpa, hperm, -⟩ := hc
    have hw : PA2PTE pa ||| perm ||| PTE_V < 2 ^ 64 := by
      refine Nat.or_lt_two_pow (Nat.or_lt_two_pow ?_ hperm) (by decide)
      rw [PA2PTE_eq]
      omega
    refine (mappages_ensures hone hw h.sat).mono fun r m' h' => ?_
    obtain ⟨hlt, hs⟩ := h'
    simp only [PtCall.effect]
    split at hs
    · next hr =>
      rw [if_pos hr]
      exact done hs (h.entries.update (hpage va (hlt hr)) fun _ => flag_or.mpr (.inr (by decide))) (mapOf_update (hlt hr))
    · next hr =>
      rw [if_neg hr]
      exact done hs h.entries rfl
  | uvmunmap va npages doFree =>
    simp only [PtCall.run, Mem.uvmunmap]
    split
    · exact .bind (Q := fun _ _ => False) .panic fun _ _ hf => hf.elim
    next ha =>
    have hva : va / PGSIZE * PGSIZE = va := Nat.div_mul_cancel (Nat.dvd_of_mod_eq_zero (not_not.mp ha))
    have hlim : u64 (va + npages * PGSIZE) / PGSIZE * PGSIZE = u64 (va + npages * PGSIZE) := by
      refine Nat.div_mul_cancel (Nat.dvd_of_mod_eq_zero ?_)
      simp only [u64, show PGSIZE = 4096 from rfl] at ha ⊢
      omega
    have hsplit : owns S = unmapped (leafAt m.ram 2 root) doFree (va / PGSIZE) (u64 (va + npages * PGSIZE) / PGSIZE) +
        owns (S - PtCall.frees m root (.uvmunmap va npages doFree)) := by
      conv_lhs => rw [← add_tsub_cancel_of_le hf, owns_add]
      congr 1
      cases doFree with
      | false => simp [unmapped, PtCall.frees, owns_zero]
      | true => simp [unmapped, PtCall.frees, owns_sum]
    have hs := h.sat
    rw [hsplit] at hs
    have hl := uvmunmapLoop_ensures vaPages hs
    rw [hva, hlim] at hl
    refine .bind hl fun _ m' hs' => .pure (done hs' h.entries.clearRange ?_)
    rw [mapOf_clearRange, hva, hlim]
    rfl
  | uvmclear va =>
    refine .bind (uvmclear_ensures h.sat) fun _ m' h' => ?_
    obtain ⟨hva, hlt, hs⟩ := h'
    refine .pure (done hs ?_ ?_)
    · refine h.entries.update (hpage va hva) fun hne => ?_
      rw [Flag, clearU_flag (by decide)]
      refine (h.entries _ (div_lt_of_lt hva) fun h0 => hne ?_).1
      rw [h0, Nat.zero_and]
    · rw [mapOf_update hva, mapping_clearU hlt, ← mapOf_PGROUNDDOWN hva]
      rfl
  | walk va alloc =>
    exact .bind (walk_ensures h.sat) fun pte m' hs => .pure (done (sat_of_walked hs.2) h.entries rfl)

/-! ## Looking up and freeing -/

theorem walkaddr_keeps : (walkaddr root va).Keeps id := by
  rw [walkaddr]
  refine .ite (.pure _) (.bind (.ite (.panic _) walkFrom_keeps) fun pte => ?_)
  refine .ite (.pure _) (.bind (load_keeps _ _) fun v => ?_)
  exact .ite (.pure _) (.ite (.pure _) (.pure _))

theorem userPa_eq : userPa leaf va = userPage (mapOf leaf) va := by
  by_cases h : va < MAXVA
  · rw [userPage, mapOf_PGROUNDDOWN h, userPa, mapping]
    by_cases hv : Flag (leaf (va / PGSIZE)) PTE_V
    · rw [if_pos hv]
      simp only [h, hv, true_and, Flag, flags_and (show 0x3FF &&& PTE_U = PTE_U by decide), ne_eq, not_false_eq_true]
    · rw [if_neg hv, if_neg fun hh => hv hh.2.1]
  · rw [userPage, mapOf, if_neg fun hh => h (PGROUNDDOWN_lt_MAXVA.mp hh.2), userPa, if_neg fun hh => h hh.1]

theorem Pagetable.walkaddr_eq (h : Pagetable K root m S) :
    walkaddr root va m = .ok (userPage (pageMap m.ram root) va, m) := by
  obtain ⟨r, m', hr, hs⟩ := walkaddr_spec va (owns S) m h.sat
  rw [add_assoc, World.sat_fact_add, userPa_eq] at hs
  have hm : m' = m := walkaddr_keeps m r m' hr
  rw [hr, hs.1, hm]
  rfl

theorem Pagetable.freewalk (h : Pagetable K root m S) (he : ∀ va, pageMap m.ram root va = none) :
    ∃ m', freewalk root m = .ok ((), m') ∧ (tablePages m.ram 2 root).Nodup ∧
      (m'.freeList : Multiset Nat) = tablePages m.ram 2 root + m.freeList := by
  have hzero : ∀ n < 512 ^ (2 + 1), leafAt m.ram 2 root n = 0 := fun n hn => h.entries.eq_zero_of_mapping hn (he _)
  obtain ⟨_, m', hm', hs'⟩ := freewalkFrom_spec hzero (owns S) m h.sat
  refine ⟨m', hm', ?_, ?_⟩
  · have hnd := Multiset.coe_nodup.mpr K.nodup_pages
    rw [h.pages, Multiset.nodup_add, Multiset.nodup_add] at hnd
    exact Multiset.coe_nodup.mp hnd.2.1.1
  · rw [zero_add] at hs'
    obtain ⟨T, hT, -, rfl⟩ := sat_split hs'
    rw [h.pages, ← add_assoc, add_comm (m.freeList : Multiset Nat)] at hT
    exact (add_right_cancel hT).symm

/-! ## Runs -/

/-- The memories in which `root` is a page table that came from uvmcreate and from calls that returned. -/
inductive Built (K : Layout) (root : Nat) : Mem → Prop where
  /-- In a memory where `T` are the pages in use, uvmcreate returns the table. -/
  | uvmcreate {m m' : Mem} {T : Multiset Nat} : (world K).Sat m (owns T) → uvmcreate m = .ok (root, m') → root ≠ 0 →
      Built K root m'
  /-- A call on the table, with any allocations refused. -/
  | call {m m' : Mem} {c : PtCall} {fails : Nat → Bool} {r : Int} : Built K root m → c.Valid →
      c.FreesInUse K m root → c.run root (m.withFails fails) = .ok (r, m') → Built K root m'
  /-- Anything else the kernel does, with the pages that are not the table's. -/
  | others {m m' : Mem} {T : Multiset Nat} : Built K root m → (world K).Sat m' (owns T) →
      (tablePages m.ram 2 root : Multiset Nat) ≤ T → (∀ pg ∈ tablePages m.ram 2 root, m'.ram pg = m.ram pg) →
      Built K root m'

theorem Pagetable.call {c : PtCall} {fails : Nat → Bool} (h : Pagetable K root m S) (hc : c.Valid)
    (hf : c.FreesInUse K m root) :
    (c.run root).Ensures (m.withFails fails) fun r m' =>
      (∃ S', Pagetable K root m' S') ∧ pageMap m'.ram root = c.effect r (pageMap m.ram root) := by
  rw [PtCall.FreesInUse, h.pages, add_le_add_iff_left, add_le_add_iff_left] at hf
  exact PtCall.run_ensures (m := m.withFails fails) ⟨sat_withFails.mpr h.sat, h.entries⟩ hc hf

theorem Built.pagetable (h : Built K root m) : ∃ S, Pagetable K root m S := by
  induction h with
  | uvmcreate hs hr hne =>
    rw [← zero_add (owns _)] at hs
    have hs' := Code.Ensures.of_triple uvmcreate_spec hs _ _ hr
    simp only [if_neg hne] at hs'
    exact ⟨_, (Pagetable.of_sat hs' fun n _ hn => absurd rfl hn).1⟩
  | call _ hc hf hr ih =>
    obtain ⟨S, hS⟩ := ih
    exact (hS.call hc hf _ _ hr).1
  | others _ hs hle hram ih =>
    obtain ⟨S, hS⟩ := ih
    exact ⟨_, (hS.others hs hle hram).1⟩

/-- **Page tables are finite maps.** In whatever memory a table that came from uvmcreate got to:
its map has page-aligned addresses below MAXVA only; walkaddr returns the page of a user mapping, else 0, and
changes nothing;
a call that returns changes the map as `effect` says, at its own pages only; nobody else changes it; with an empty
map, freewalk returns and adds each of the table's pages to the free list, once. -/
theorem pagetable_is_map (h : Built K root m) :
    (∀ va, pageMap m.ram root va ≠ none → va % PGSIZE = 0 ∧ va < MAXVA) ∧
    (∀ va, walkaddr root va m = .ok (userPage (pageMap m.ram root) va, m)) ∧
    (∀ (c : PtCall) fails r m', c.Valid → c.FreesInUse K m root →
      c.run root (m.withFails fails) = .ok (r, m') → pageMap m'.ram root = c.effect r (pageMap m.ram root)) ∧
    (∀ pa perm, pa % PGSIZE = 0 → pa < 2 ^ 56 → perm < 2 ^ 10 →
      mapping (PA2PTE pa ||| perm ||| PTE_V) = some (pa, perm ||| PTE_V)) ∧
    (∀ m' T, (world K).Sat m' (owns T) → (tablePages m.ram 2 root : Multiset Nat) ≤ T →
      (∀ pg ∈ tablePages m.ram 2 root, m'.ram pg = m.ram pg) → pageMap m'.ram root = pageMap m.ram root) ∧
    ((∀ va, pageMap m.ram root va = none) → ∃ m', freewalk root m = .ok ((), m') ∧
      (tablePages m.ram 2 root).Nodup ∧ (m'.freeList : Multiset Nat) = tablePages m.ram 2 root + m.freeList) := by
  obtain ⟨S, hS⟩ := h.pagetable
  refine ⟨fun va hva => ?_, fun va => hS.walkaddr_eq, ?_, fun pa perm => mapping_pte, ?_, hS.freewalk⟩
  · by_contra hn
    exact hva (if_neg hn)
  · intro c fails r m' hc hf hr
    exact (hS.call hc hf r m' hr).2
  · intro m' T hs hle hram
    exact (hS.others hs hle hram).2

/-! ## A run -/

/-- Four pages of memory, all in use. -/
def fourPages : Mem where
  layout := ⟨PHYSTOP - 4 * PGSIZE, KERNBASE, by decide, by decide, by decide⟩
  ram := fun _ => Buffer.fill 0
  freelist := 0
  fails := fun _ => false

def lastPage : Nat := PHYSTOP - PGSIZE

/-- Three of them are freed. -/
def freeThree : Code Mem Unit := do
  kfree (PHYSTOP - 4 * PGSIZE)
  kfree (PHYSTOP - 3 * PGSIZE)
  kfree (PHYSTOP - 2 * PGSIZE)

/-- They make a table that maps the fourth. -/
def mapLast : Option (Nat × Mem) := do
  let (_, m₀) ← (freeThree fourPages).toOption
  let (root, m₁) ← (uvmcreate m₀).toOption
  let (_, m₂) ← ((PtCall.mappages 0x1000 100 lastPage (PTE_R ||| PTE_U)).run root m₁).toOption
  if root = 0 then none else return (root, m₂)

theorem freeThree_sat : freeThree.Ensures fourPages fun _ m => (world fourPages.layout).Sat m (owns {lastPage}) := by
  have hall : (fourPages.layout.pages : Multiset Nat) = {PHYSTOP - 4 * PGSIZE} + ({PHYSTOP - 3 * PGSIZE} +
      ({PHYSTOP - 2 * PGSIZE} + {lastPage})) := by decide
  have hs : (world fourPages.layout).Sat fourPages (page (PHYSTOP - 4 * PGSIZE) + (page (PHYSTOP - 3 * PGSIZE) +
      (page (PHYSTOP - 2 * PGSIZE) + owns {lastPage}))) := by
    rw [← owns_singleton, ← owns_singleton, ← owns_singleton, ← owns_add, ← owns_add, ← owns_add, ← hall]
    exact sat_iff.mpr ⟨rfl, [], holds_fact_add.mpr ⟨rfl, rfl⟩⟩
  refine .bind (.of_triple kfree_spec hs) fun _ m₁ h₁ => ?_
  rw [zero_add] at h₁
  refine .bind (.of_triple kfree_spec h₁) fun _ m₂ h₂ => ?_
  rw [zero_add] at h₂
  exact (Code.Ensures.of_triple kfree_spec h₂).mono fun _ _ h₃ => by rwa [zero_add] at h₃

theorem mapLast_built {p : Nat × Mem} (h : mapLast = some p) : Built fourPages.layout p.1 p.2 := by
  have get {α : Type} {x : Except String α} {a : α} (hx : x.toOption = some a) : x = .ok a := by
    cases x with
    | ok b => exact congrArg _ (Option.some.inj hx)
    | error => cases hx
  simp only [mapLast, Option.bind_eq_bind, Option.bind_eq_some_iff, Prod.exists, Option.pure_def,
    Option.ite_none_left_eq_some, Option.some.injEq] at h
  obtain ⟨_, m₀, h₀, root, m₁, h₁, r, m₂, h₂, hne, rfl⟩ := h
  have hb : Built fourPages.layout root m₁ := .uvmcreate (freeThree_sat _ _ (get h₀)) (get h₁) hne
  obtain ⟨S, hS⟩ := hb.pagetable
  have hrun : (PtCall.mappages 0x1000 100 lastPage (PTE_R ||| PTE_U)).run root (m₁.withFails m₁.fails) = .ok (r, m₂) :=
    get h₂
  refine .call hb ?_ ?_ hrun
  · simp only [PtCall.Valid]
    decide
  · rw [PtCall.FreesInUse, hS.pages]
    exact add_le_add_right (add_le_add_right (Multiset.zero_le S) _) _

theorem pagetable_is_map_last : ∃ root m, Built fourPages.layout root m ∧
    pageMap m.ram root 0x1000 = some (lastPage, PTE_R ||| PTE_U ||| PTE_V) ∧
    walkaddr root 0x1234 m = .ok (lastPage, m) := by
  have ht : mapLast.any (fun p => decide
      (pageMap p.2.ram p.1 0x1000 = some (lastPage, PTE_R ||| PTE_U ||| PTE_V))) = true := by
    decide +kernel
  obtain ⟨p, hp, hm⟩ := (Option.any_eq_true _ _).mp ht
  have hb := mapLast_built hp
  have h := pagetable_is_map hb
  have hm := of_decide_eq_true hm
  refine ⟨p.1, p.2, hb, hm, ?_⟩
  rw [h.2.1, userPage, show PGROUNDDOWN 0x1234 = 0x1000 by decide, hm]
  rfl

end Xv6
