/-
Page tables as assertions. `PT l pg leaf` owns the table page `pg` at level `l` and the
tables below it, and says what they map: entry `n` of the 512^(l+1) entries at level 0
is `leaf n`, 0 where there is none. `walk` finds the entry of a virtual page and hands
out a `Slot`: one word of an owned page, together with what the whole table becomes when
that word is changed. Everything vm.c does to page tables goes through `walkFrom_spec`,
`load_slot` and `store_slot`.
-/
import Xv6.Vm.Model

namespace Xv6

open Lib Lib.Own Mem

/-! ## Tables -/

/-- A page of 512 entries. -/
def table (pg : Nat) (w : Nat → Nat) : Own Nat Page :=
  ex fun c : Page => fact (∀ i < 512, c.getLE (8 * i) 8 = w i) + cell pg c

/-- The entry for the child table `kid`, or for none. -/
def dirEntry (kid : Nat) : Nat := if kid = 0 then 0 else PA2PTE kid ||| PTE_V

/-- The entries below entry `i` of a table at level `l + 1`. -/
def slice (l : Nat) (leaf : Nat → Nat) (i j : Nat) : Nat := leaf (i * 512 ^ (l + 1) + j)

/-- The places in a table. -/
@[irreducible] def entries : Finset Nat := Finset.range 512

theorem mem_entries {i : Nat} : i ∈ entries ↔ i < 512 := by
  rw [entries, Finset.mem_range]

theorem sum_entries (A : Nat → Own Nat Page) : ∑ i ∈ entries, A i = ((List.range 512).map A).sum := by
  rw [entries, Finset.sum_eq_multiset_sum, Finset.range_val, ← Multiset.coe_range, Multiset.map_coe, Multiset.sum_coe]

/-- What entry `i` of a table at level `l + 1` owns: the table `kid`, or without one the knowledge
that nothing below is mapped. `sub` is the assertion for tables at level `l`. -/
def child (sub : Nat → (Nat → Nat) → Own Nat Page) (l : Nat) (leaf : Nat → Nat) (i kid : Nat) : Own Nat Page :=
  if kid = 0 then fact (∀ j < 512 ^ (l + 1), slice l leaf i j = 0) else sub kid (slice l leaf i)

/-- The table at level `l` in page `pg`, with its leaves. -/
def PT : Nat → Nat → (Nat → Nat) → Own Nat Page
  | 0, pg, leaf => table pg leaf
  | l + 1, pg, leaf => ex fun kids : Nat → Nat =>
    table pg (fun i => dirEntry (kids i)) + ∑ i ∈ entries, child (PT l) l leaf i (kids i)

variable {K : Layout} {l pg a v n : Nat} {leaf f g : Nat → Nat} {c : Page} {R : Own Nat Page} {s : Mem}

theorem table_congr (h : ∀ i < 512, f i = g i) : table pg f ≤ table pg g :=
  ex_le fun c => le_ex c (fact_add_le fun hc => le_fact_add (fun i hi => (hc i hi).trans (h i hi)) le_rfl)

theorem child_congr {sub : Nat → (Nat → Nat) → Own Nat Page} {i kid : Nat}
    (hsub : ∀ {pg f g}, (∀ j < 512 ^ (l + 1), f j = g j) → sub pg f ≤ sub pg g)
    (h : ∀ j < 512 ^ (l + 1), slice l f i j = slice l g i j) : child sub l f i kid ≤ child sub l g i kid := by
  unfold child
  split
  · intro m S hS
    exact ⟨hS.1, fun j hj => (h j hj).symm.trans (hS.2 j hj)⟩
  · exact hsub h

theorem index_lt {i j : Nat} (hi : i < 512) (hj : j < 512 ^ (l + 1)) : i * 512 ^ (l + 1) + j < 512 ^ (l + 1 + 1) := by
  calc i * 512 ^ (l + 1) + j < (i + 1) * 512 ^ (l + 1) := by rw [Nat.succ_mul]; omega
    _ ≤ 512 * 512 ^ (l + 1) := Nat.mul_le_mul_right _ hi
    _ = 512 ^ (l + 1 + 1) := by ring

/-- A table's assertion reads the leaves below it only. -/
theorem PT_congr (h : ∀ j < 512 ^ (l + 1), f j = g j) : PT l pg f ≤ PT l pg g := by
  induction l generalizing pg f g with
  | zero => exact table_congr h
  | succ l ih =>
    refine ex_le fun kids => le_ex kids (add_le_add_right (Finset.sum_le_sum fun i hi => ?_) _)
    exact child_congr ih fun j hj => h _ (index_lt (mem_entries.mp hi) hj)

theorem sat_table_mem (h : (world K).Sat s (table pg f + R)) : pg ∈ K.pages := by
  obtain ⟨c, hc⟩ := World.sat_ex_add.mp h
  rw [add_assoc, World.sat_fact_add] at hc
  exact sat_cell_mem hc.2

/-- The table's own page is one of the kernel's pages. -/
theorem sat_PT_mem (h : (world K).Sat s (PT l pg leaf + R)) : pg ∈ K.pages := by
  cases l with
  | zero => exact sat_table_mem h
  | succ l =>
    obtain ⟨kids, hk⟩ := World.sat_ex_add.mp h
    rw [add_assoc] at hk
    exact sat_table_mem hk

/-- A page of zeros is a table that maps nothing. -/
theorem zero_le_PT : cell pg (Buffer.fill 0) ≤ PT l pg fun _ => 0 := by
  have ht : cell pg (Buffer.fill 0) ≤ table pg fun _ => 0 :=
    le_ex _ (le_fact_add (fun _ _ => Buffer.getLE_fill_zero) le_rfl)
  cases l with
  | zero => exact ht
  | succ l =>
    refine le_ex (fun _ => 0) ?_
    rw [Finset.sum_eq_zero fun i _ => ?_]
    · rw [add_zero]
      exact ht
    · rw [child, if_pos rfl]
      exact fact_of fun _ _ => rfl

/-! ## Slots -/

/-- What completes the page `c` with a new word `v'` in place `i` to `k v'`. -/
def refill (pg i : Nat) (c : Page) (k : Nat → Own Nat Page) : Own Nat Page :=
  all fun v' : { v : Nat // v < 2 ^ 64 } => wand (cell pg (c.putLE (8 * i) 8 v')) (k v')

theorem refill_add_le {i : Nat} {k : Nat → Own Nat Page} (hv : v < 2 ^ 64) :
    refill pg i c k + cell pg (c.putLE (8 * i) 8 v) ≤ k v :=
  (add_le_add_left (all_le (⟨v, hv⟩ : { v : Nat // v < 2 ^ 64 })) _).trans wand_add_le

theorem le_refill {i : Nat} {k : Nat → Own Nat Page} (h : ∀ v < 2 ^ 64, R + cell pg (c.putLE (8 * i) 8 v) ≤ k v) :
    R ≤ refill pg i c k :=
  le_all fun v => le_wand (h v.1 v.2)

/-- The word at `a` of some owned page holds `v`; storing `v'` there makes `k v'`. -/
def Slot (a v : Nat) (k : Nat → Own Nat Page) : Own Nat Page :=
  ex fun p : Nat × Nat × Page =>
    fact (a = p.1 + 8 * p.2.1 ∧ p.2.1 < 512 ∧ p.2.2.getLE (8 * p.2.1) 8 = v) +
    (cell p.1 p.2.2 + refill p.1 p.2.1 p.2.2 k)

theorem slot_mono {k k' : Nat → Own Nat Page} (h : ∀ v < 2 ^ 64, k v + R ≤ k' v) :
    Slot a v k + R ≤ Slot a v k' := by
  rw [Slot, ex_add]
  refine ex_le fun p => le_ex p ?_
  rw [add_assoc, add_assoc]
  refine add_le_add_right (add_le_add_right (le_refill fun v' hv' => ?_) _) _
  rw [add_right_comm]
  exact (add_le_add_left (refill_add_le hv') R).trans (h v' hv')

/-- Left alone, the word closes what it was taken from. -/
theorem slot_close {k : Nat → Own Nat Page} : Slot a v k ≤ k v := by
  refine ex_le fun ⟨pg, i, c⟩ => fact_add_le fun ⟨_, _, hv⟩ => ?_
  dsimp only at hv ⊢
  have hlt : v < 2 ^ 64 := hv ▸ (c.getLE_lt (8 * i) 8).trans_le (by decide)
  have hc : c.putLE (8 * i) 8 v = c := hv ▸ c.putLE_getLE (8 * i) 8
  rw [add_comm]
  exact (congrArg (fun c' => refill pg i c k + cell pg c') hc).symm.le.trans (refill_add_le hlt)

theorem page_word {i : Nat} (hp : pg ∈ K.pages) (hi : i < 512) :
    PGROUNDDOWN (pg + 8 * i) = pg ∧ (pg + 8 * i) % PGSIZE = 8 * i := by
  have ha := (Layout.mem_pages.mp hp).1
  simp only [PGROUNDDOWN, PGSIZE] at ha ⊢
  omega

theorem load_slot {k : Nat → Own Nat Page} :
    Triple (world K) (Slot a v k) (load a 8) fun r => fact (r = v) + Slot a v k := by
  refine .ex fun ⟨pg, i, c⟩ => .fact fun ⟨ha, hi, hv⟩ => ?_
  refine .assume (fun R s h => sat_cell_mem (add_assoc (cell pg c) _ R ▸ h)) fun hp => ?_
  obtain ⟨h1, h2⟩ := page_word hp hi
  dsimp only at ha hv
  subst ha
  refine ((load_spec h1).frame _).conseq le_rfl fun r => ?_
  rw [add_assoc, h2, hv]
  refine add_le_add_right (le_ex (pg, i, c) ?_) _
  exact le_fact_add ⟨rfl, hi, hv⟩ le_rfl

theorem store_slot {k : Nat → Own Nat Page} {v' : Nat} (hv' : v' < 2 ^ 64) :
    Triple (world K) (Slot a v k) (store a 8 v') fun _ => k v' := by
  refine .ex fun ⟨pg, i, c⟩ => .fact fun ⟨ha, hi, _⟩ => ?_
  refine .assume (fun R s h => sat_cell_mem (add_assoc (cell pg c) _ R ▸ h)) fun hp => ?_
  obtain ⟨h1, h2⟩ := page_word hp hi
  dsimp only at ha
  subst ha
  refine ((store_spec h1).frame _).conseq le_rfl fun _ => ?_
  rw [h2, add_comm]
  exact refill_add_le hv'

theorem getLE_putLE_word {i j : Nat} (hi : i < 512) (hj : j < 512) (hv : v < 2 ^ 64) :
    (c.putLE (8 * i) 8 v).getLE (8 * j) 8 = if j = i then v else c.getLE (8 * j) 8 := by
  split
  · next h =>
    subst h
    rw [Buffer.getLE_putLE (by simp only [PGSIZE]; omega), Nat.mod_eq_of_lt (hv.trans_le (by decide))]
  · next h => exact Buffer.getLE_putLE_disjoint (by simp only [PGSIZE]; omega) (by omega)

/-- An entry of a table is a slot. -/
theorem table_le_slot {i : Nat} (hi : i < 512) :
    table pg f ≤ Slot (pg + 8 * i) (f i) fun v => table pg (Function.update f i v) := by
  refine ex_le fun c => fact_add_le fun hc => le_ex (pg, i, c) (le_fact_add ⟨rfl, hi, hc i hi⟩ ?_)
  have hr : 0 ≤ refill pg i c fun v => table pg (Function.update f i v) := by
    refine le_refill fun v hv => ?_
    rw [zero_add]
    refine le_ex _ (le_fact_add (fun j hj => ?_) le_rfl)
    rw [getLE_putLE_word hi hj hv, Function.update_apply, hc j hj]
  simpa only [add_zero] using add_le_add_right hr (cell pg c)

/-! ## walk -/

theorem index_split (vpn l : Nat) :
    vpn % 512 ^ (l + 2) = vpn / 512 ^ (l + 1) % 512 * 512 ^ (l + 1) + vpn % 512 ^ (l + 1) := by
  rw [show 512 ^ (l + 2) = 512 ^ (l + 1) * 512 by ring, Nat.mod_mul]
  ring

theorem slice_update_self {i n : Nat} :
    slice l (Function.update leaf (i * 512 ^ (l + 1) + n) v) i = Function.update (slice l leaf i) n v := by
  funext j
  simp [slice, Function.update_apply]

theorem slice_update_other {i i' j n : Nat} (h : i' ≠ i) (hj : j < 512 ^ (l + 1)) (hn : n < 512 ^ (l + 1)) :
    slice l (Function.update leaf (i * 512 ^ (l + 1) + n) v) i' j = slice l leaf i' j := by
  refine Function.update_of_ne (fun e => h ?_) _ _
  have hq := congrArg (· / 512 ^ (l + 1)) e
  simpa [Nat.add_comm, Nat.add_mul_div_right, Nat.div_eq_of_lt, hj, hn] using hq

/-- Put a changed child back beside the children that stayed. -/
theorem PT_rebuild (kids : Nat → Nat) {i : Nat} {leaf' : Nat → Nat} (hi : i < 512)
    (h : ∀ i' ≠ i, ∀ j < 512 ^ (l + 1), slice l leaf i' j = slice l leaf' i' j) :
    table pg (fun j => dirEntry (kids j)) + (child (PT l) l leaf' i (kids i) +
      ∑ j ∈ entries.erase i, child (PT l) l leaf j (kids j)) ≤ PT (l + 1) pg leaf' := by
  refine le_ex kids (add_le_add_right ?_ _)
  rw [← Finset.add_sum_erase _ _ (mem_entries.mpr hi)]
  refine add_le_add_right (sum_erase_le fun j hne => ?_) _
  exact child_congr PT_congr (h j hne)

/-- What walk leaves: the entry it found, or on 0 the table as it was. -/
def Walked (l pg : Nat) (leaf : Nat → Nat) (n : Nat) (alloc : Bool) (r : Nat) : Own Nat Page :=
  if r = 0 then fact (alloc = false → leaf n = 0) + PT l pg leaf
  else Slot r (leaf n) fun v => PT l pg (Function.update leaf n v)

theorem dirEntry_valid {kid : Nat} (h : kid ≠ 0) : Flag (dirEntry kid) PTE_V := by
  rw [Flag, dirEntry, if_neg h, or_and_flag (by decide) (by decide)]
  decide

theorem PTE2PA_dirEntry {kid : Nat} (h : kid ∈ K.pages) : PTE2PA (dirEntry kid) = kid := by
  rw [dirEntry, if_neg (Layout.ne_zero_of_mem h)]
  obtain ⟨ha, -, hr⟩ := Layout.mem_pages.mp h
  exact PTE2PA_or (by decide) ha (hr.trans (by decide))

theorem dirEntry_lt {kid : Nat} (h : kid ∈ K.pages) : PA2PTE kid ||| PTE_V < 2 ^ 64 := by
  have h1 := (Layout.mem_pages.mp h).2.2
  have h2 : PHYSTOP = 2281701376 := rfl
  rw [PA2PTE_or (by decide), show PTE_V = 1 from rfl]
  omega

/-- The child under the entry of page `vpn`. -/
theorem walk_child {kids : Nat → Nat} {vpn : Nat} {alloc : Bool} {c : Code Mem Nat}
    (hk : kids (vpn / 512 ^ (l + 1) % 512) ≠ 0)
    (ih : Triple (world K) (PT l (kids (vpn / 512 ^ (l + 1) % 512)) (slice l leaf (vpn / 512 ^ (l + 1) % 512))) c
      (Walked l (kids (vpn / 512 ^ (l + 1) % 512)) (slice l leaf (vpn / 512 ^ (l + 1) % 512))
        (vpn % 512 ^ (l + 1)) alloc)) :
    Triple (world K) (table pg (fun j => dirEntry (kids j)) +
        (child (PT l) l leaf (vpn / 512 ^ (l + 1) % 512) (kids (vpn / 512 ^ (l + 1) % 512)) +
          ∑ j ∈ entries.erase (vpn / 512 ^ (l + 1) % 512), child (PT l) l leaf j (kids j)))
      c (Walked (l + 1) pg leaf (vpn % 512 ^ (l + 2)) alloc) := by
  have hi : vpn / 512 ^ (l + 1) % 512 < 512 := Nat.mod_lt _ (by decide)
  have hn : vpn % 512 ^ (l + 1) < 512 ^ (l + 1) := Nat.mod_lt _ (by positivity)
  rw [index_split]
  generalize vpn / 512 ^ (l + 1) % 512 = i at hk ih hi ⊢
  generalize vpn % 512 ^ (l + 1) = n at ih hn ⊢
  rw [child, if_neg hk, add_left_comm]
  refine (ih.frame _).conseq le_rfl fun r => ?_
  unfold Walked
  split
  · rw [add_assoc]
    refine add_le_add_right ?_ _
    rw [add_left_comm]
    refine le_trans (le_of_eq ?_) (PT_rebuild kids hi fun _ _ _ _ => rfl)
    rw [child, if_neg hk]
  · refine slot_mono fun v _ => ?_
    rw [add_left_comm]
    refine le_trans (le_of_eq ?_) (PT_rebuild kids hi fun i' hne j hj => (slice_update_other hne hj hn).symm)
    rw [child, if_neg hk, slice_update_self]

/-- Hang the new table `kid` under an entry that had none. -/
theorem add_child {kids : Nat → Nat} {i kid : Nat} (hkid : kid ≠ 0) (hk : kids i = 0) :
    table pg (Function.update (fun j => dirEntry (kids j)) i (PA2PTE kid ||| PTE_V)) +
      (cell kid (Buffer.fill 0) + (child (PT l) l leaf i (kids i) +
        ∑ j ∈ entries.erase i, child (PT l) l leaf j (kids j))) ≤
    table pg (fun j => dirEntry (Function.update kids i kid j)) +
      (child (PT l) l leaf i (Function.update kids i kid i) +
        ∑ j ∈ entries.erase i, child (PT l) l leaf j (Function.update kids i kid j)) := by
  rw [child, if_pos hk, child, Function.update_self, if_neg hkid]
  refine add_le_add (table_congr fun j _ => ?_) ?_
  · simp only [Function.update_apply]
    split
    · rw [dirEntry, if_neg hkid]
    · rfl
  · rw [add_left_comm]
    refine fact_add_le fun hz => add_le_add (zero_le_PT.trans (PT_congr fun j hj => (hz j hj).symm)) ?_
    exact sum_erase_le fun j hne => by rw [Function.update_of_ne hne]

theorem walkFrom_spec (va : Nat) (alloc : Bool) :
    Triple (world K) (PT l pg leaf) (walkFrom va alloc l pg)
      (Walked l pg leaf (va / PGSIZE % 512 ^ (l + 1)) alloc) := by
  induction l generalizing pg leaf with
  | zero =>
    refine .assume (fun R s h => sat_PT_mem h) fun hp => .ret ?_
    have hne : pg + 8 * PX 0 va ≠ 0 := by have := Layout.ne_zero_of_mem hp; omega
    rw [Walked, if_neg hne, PX_eq, pow_zero, Nat.div_one, zero_add, pow_one]
    exact table_le_slot (Nat.mod_lt _ (by decide))
  | succ l ih =>
    refine .ex fun kids => ?_
    simp only [walkFrom]
    rw [PX_eq]
    have hi : va / PGSIZE / 512 ^ (l + 1) % 512 < 512 := Nat.mod_lt _ (by decide)
    have hn : va / PGSIZE % 512 ^ (l + 1) < 512 ^ (l + 1) := Nat.mod_lt _ (by positivity)
    rw [← Finset.add_sum_erase _ _ (mem_entries.mpr hi)]
    refine .seq load_slot _ (add_le_add_left (table_le_slot hi) _) fun v => ?_
    rw [add_assoc]
    refine .fact fun hv => ?_
    subst hv
    by_cases hk : kids (va / PGSIZE / 512 ^ (l + 1) % 512) = 0
    · have hnv : ¬ Flag (dirEntry (kids (va / PGSIZE / 512 ^ (l + 1) % 512))) PTE_V := by simp [Flag, dirEntry, hk]
      rw [if_neg hnv]
      have hback : Slot (pg + 8 * (va / PGSIZE / 512 ^ (l + 1) % 512))
            (dirEntry (kids (va / PGSIZE / 512 ^ (l + 1) % 512)))
            (fun v => table pg (Function.update (fun j => dirEntry (kids j)) (va / PGSIZE / 512 ^ (l + 1) % 512) v)) +
          (child (PT l) l leaf (va / PGSIZE / 512 ^ (l + 1) % 512) (kids (va / PGSIZE / 512 ^ (l + 1) % 512)) +
            ∑ j ∈ entries.erase (va / PGSIZE / 512 ^ (l + 1) % 512), child (PT l) l leaf j (kids j)) ≤
          PT (l + 1) pg leaf := by
        refine (add_le_add_left slot_close _).trans ?_
        rw [Function.update_eq_self]
        exact PT_rebuild kids hi fun _ _ _ _ => rfl
      split
      · refine .ret ?_
        rw [Walked, if_pos rfl]
        refine fun m S hS => holds_fact_add.mpr ⟨fun _ => ?_, hback m S hS⟩
        rw [child, if_pos hk, add_left_comm, holds_fact_add] at hS
        rw [index_split]
        exact hS.1 _ hn
      · next ha =>
        refine .seq kalloc_spec _ (zero_add _).symm.le fun kid => ?_
        split
        · refine .ret ?_
          rw [Walked, if_pos rfl, zero_add]
          exact le_fact_add (fun h => absurd h ha) hback
        · next hkid =>
          refine .seq memset_spec _ le_rfl fun _ => ?_
          refine .assume (φ := kid ∈ K.pages) (fun R s h => ?_) fun hmem => ?_
          · rw [add_assoc] at h
            exact sat_cell_mem h
          refine .seq (store_slot (dirEntry_lt hmem)) _ (by rw [add_left_comm]) fun _ => ?_
          refine .conseq ?_ (add_child hkid hk) fun _ => le_rfl
          refine walk_child ?_ ?_
          · rwa [Function.update_self]
          · rw [Function.update_self]
            exact ih
    · rw [if_pos (dirEntry_valid hk)]
      refine .conseq (P := _) ?_ (add_le_add_left slot_close _) fun _ => le_rfl
      refine .assume (φ := kids (va / PGSIZE / 512 ^ (l + 1) % 512) ∈ K.pages) (fun R s h => ?_) fun hkid => ?_
      · rw [child, if_neg hk, add_left_comm, add_assoc] at h
        exact sat_PT_mem h
      rw [PTE2PA_dirEntry hkid, Function.update_eq_self]
      exact walk_child hk ih

theorem vpn_lt {va : Nat} (h : va < MAXVA) : va / PGSIZE % 512 ^ (2 + 1) = va / PGSIZE := by
  have hm : MAXVA = 2 ^ 38 := rfl
  simp only [PGSIZE]
  omega

theorem walk_spec {va : Nat} (h : va < MAXVA) (alloc : Bool) :
    Triple (world K) (PT 2 pg leaf) (walk pg va alloc) (Walked 2 pg leaf (va / PGSIZE) alloc) := by
  rw [Mem.walk, if_neg (by omega), ← vpn_lt h]
  exact walkFrom_spec va alloc

/-! ## freewalk -/

theorem dirEntry_dir (kid : Nat) : dirEntry kid &&& (PTE_R ||| PTE_W ||| PTE_X) = 0 := by
  rw [dirEntry]
  split
  · simp
  · rw [or_and_flag (by decide) (by decide)]
    decide

/-- The loop over a table's entries frees what hangs under them. -/
theorem freewalkEntries_spec {free : Nat → Code Mem Unit} {w kids : Nat → Nat} {A : Nat → Own Nat Page}
    {is : List Nat} (hnd : is.Nodup) (hlt : ∀ i ∈ is, i < 512) (hw : ∀ i ∈ is, w i = dirEntry (kids i))
    (hnone : ∀ i ∈ is, kids i = 0 → A i ≤ 0)
    (hkid : ∀ i ∈ is, kids i ≠ 0 → ∀ R s, (world K).Sat s (A i + R) → kids i ∈ K.pages)
    (hfree : ∀ i ∈ is, kids i ≠ 0 → Triple (world K) (A i) (free (kids i)) fun _ => 0) :
    Triple (world K) (table pg w + (is.map A).sum) (freewalkEntries free pg is) fun _ => page pg := by
  induction is generalizing w with
  | nil =>
    refine .ret ?_
    rw [List.map_nil, List.sum_nil, add_zero]
    exact ex_le fun c => fact_add_le fun _ => cell_le_page
  | cons i is ih =>
    have hi := hlt i List.mem_cons_self
    have hrest : ∀ w', (∀ j ∈ is, w' j = dirEntry (kids j)) →
        Triple (world K) (table pg w' + (is.map A).sum) (freewalkEntries free pg is) fun _ => page pg := fun w' hw' =>
      ih (List.nodup_cons.mp hnd).2 (fun j hj => hlt j (.tail i hj)) hw' (fun j hj => hnone j (.tail i hj))
        (fun j hj => hkid j (.tail i hj)) (fun j hj => hfree j (.tail i hj))
    rw [List.map_cons, List.sum_cons]
    refine .seq load_slot _ (add_le_add_left (table_le_slot hi) _) fun v => ?_
    rw [add_assoc, hw i List.mem_cons_self]
    refine .fact fun hv => ?_
    subst hv
    by_cases hk : kids i = 0
    · have hnv : ¬ Flag (dirEntry (kids i)) PTE_V := by simp [Flag, dirEntry, hk]
      rw [if_neg (fun h => hnv h.1), if_neg hnv]
      refine .conseq (hrest w fun j hj => hw j (.tail i hj)) ?_ fun _ => le_rfl
      refine add_le_add (slot_close.trans ?_) ((add_le_add_left (hnone i List.mem_cons_self hk) _).trans (zero_add _).le)
      rw [← hw i List.mem_cons_self, Function.update_eq_self]
    · rw [if_pos ⟨dirEntry_valid hk, dirEntry_dir _⟩]
      refine .assume (φ := kids i ∈ K.pages) (fun R s h => ?_) fun hmem => ?_
      · rw [add_left_comm, add_assoc] at h
        exact hkid i List.mem_cons_self hk _ s h
      rw [PTE2PA_dirEntry hmem]
      refine .seq (hfree i List.mem_cons_self hk) _ (by rw [add_left_comm]) fun _ => ?_
      rw [zero_add]
      refine .seq (store_slot (by decide)) _ le_rfl fun _ => hrest _ fun j hj => ?_
      have hne : j ≠ i := by
        rintro rfl
        exact (List.nodup_cons.mp hnd).1 hj
      rw [Function.update_of_ne hne, hw j (.tail i hj)]

/-- freewalk returns a table that maps nothing, with all tables below it. -/
theorem freewalkFrom_spec (h : ∀ n < 512 ^ (l + 1), leaf n = 0) :
    Triple (world K) (PT l pg leaf) (freewalkFrom (l + 1) pg) fun _ => 0 := by
  have hr : ∀ i ∈ List.range 512, i < 512 := fun i hi => List.mem_range.mp hi
  induction l generalizing pg leaf with
  | zero =>
    refine .bind (Q := fun _ => page pg) ?_ fun _ => kfree_spec
    have hkid : dirEntry 0 = 0 := rfl
    refine .conseq (freewalkEntries_spec (A := fun _ => 0) (w := leaf) List.nodup_range hr
      (fun i hi => (h i (hr i hi)).trans hkid.symm) (fun _ _ _ => le_rfl) (fun _ _ hk => absurd rfl hk)
      (fun _ _ hk => absurd rfl hk)) ?_ fun _ => le_rfl
    rw [← sum_entries, Finset.sum_const_zero, add_zero]
    exact le_rfl
  | succ l ih =>
    refine .ex fun kids => .bind (Q := fun _ => page pg) ?_ fun _ => kfree_spec
    rw [sum_entries]
    refine freewalkEntries_spec List.nodup_range hr (fun _ _ => rfl) ?_ ?_ ?_
    · intro i hi hk
      rw [child, if_pos hk]
      exact fun m S hS => hS.1
    · intro i hi hk R s hs
      rw [child, if_neg hk] at hs
      exact sat_PT_mem hs
    · intro i hi hk
      rw [child, if_neg hk]
      exact ih fun n hn => h _ (index_lt (hr i hi) hn)

/-! ## mappages and uvmunmap -/

/-- Mapping one page that is not mapped; -1 when a table page cannot be allocated. -/
theorem mappages_spec {va pa perm : Nat} (hva : va % PGSIZE = 0) (hlt : va < MAXVA) (hfree : leaf (va / PGSIZE) = 0)
    (hw : PA2PTE pa ||| perm ||| PTE_V < 2 ^ 64) :
    Triple (world K) (PT 2 pg leaf) (mappages pg va PGSIZE pa perm) fun r =>
      if r = 0 then PT 2 pg (Function.update leaf (va / PGSIZE) (PA2PTE pa ||| perm ||| PTE_V))
      else fact (r = -1) + PT 2 pg leaf := by
  have hm : MAXVA = 2 ^ 38 := rfl
  have hp : PGSIZE = 4096 := rfl
  have hfirst : PGROUNDDOWN va = va := by
    simp only [PGROUNDDOWN, hp] at hva ⊢
    omega
  have hlast : PGROUNDDOWN (u64 (va + PGSIZE - 1)) = va := by
    simp only [PGROUNDDOWN, u64, hp] at hva ⊢
    omega
  rw [mappages, if_neg (by decide), hfirst, hlast, vaPages, mappagesLoop]
  refine .bind (walk_spec hlt true) fun pte => ?_
  rw [Walked]
  split
  · rw [fact_of (by simp), zero_add]
    refine .ret ?_
    rw [if_neg (by decide), fact_of rfl, zero_add]
  · refine .bind load_slot fun v => .fact fun hv => ?_
    subst hv
    rw [hfree, if_neg (by simp [Flag])]
    refine .bind (store_slot hw) fun _ => ?_
    rw [if_pos rfl]
    exact .ret (by rw [if_pos rfl])

/-- The leaves with those in [v0, v0 + np) gone. -/
def clearRange (leaf : Nat → Nat) (v0 np k : Nat) : Nat := if v0 ≤ k ∧ k < v0 + np then 0 else leaf k

theorem clearRange_zero (v0 : Nat) : clearRange leaf v0 0 = leaf := by
  funext k
  rw [clearRange, if_neg (by omega)]

theorem clearRange_succ (v0 np : Nat) :
    clearRange (Function.update leaf v0 0) (v0 + 1) np = clearRange leaf v0 (np + 1) := by
  funext k
  simp only [clearRange, Function.update_apply]
  split_ifs <;> first | rfl | omega

/-- A valid entry that maps a page. -/
def Maps (w : Nat) : Prop := Flag w PTE_V ∧ PTE_FLAGS w ≠ PTE_V

theorem uvmunmapLoop_spec {v0 np fuel : Nat} {doFree : Bool} (hmax : (v0 + np) * PGSIZE ≤ MAXVA) (hf : np < fuel)
    (hmap : ∀ k, v0 ≤ k → k < v0 + np → Maps (leaf k)) :
    Triple (world K)
      (PT 2 pg leaf + ∑ k ∈ Finset.Ico v0 (v0 + np), if doFree then page (PTE2PA (leaf k)) else 0)
      (uvmunmapLoop pg ((v0 + np) * PGSIZE) doFree fuel (v0 * PGSIZE))
      fun _ => PT 2 pg (clearRange leaf v0 np) := by
  have hm : MAXVA = 2 ^ 38 := rfl
  have hp : PGSIZE = 4096 := rfl
  induction np generalizing v0 leaf fuel with
  | zero =>
    obtain ⟨fuel, rfl⟩ : ∃ n, fuel = n + 1 := ⟨fuel - 1, by omega⟩
    rw [uvmunmapLoop, if_neg (by simp), add_zero, Finset.Ico_self, Finset.sum_empty, add_zero, clearRange_zero]
    exact .ret le_rfl
  | succ np ih =>
    obtain ⟨fuel, rfl⟩ : ∃ n, fuel = n + 1 := ⟨fuel - 1, by omega⟩
    obtain ⟨hv, hleaf⟩ := hmap v0 le_rfl (by omega)
    rw [uvmunmapLoop, if_pos (by rw [hp]; omega), Finset.sum_eq_sum_Ico_succ_bot (by omega)]
    have hva : v0 * PGSIZE / PGSIZE = v0 := Nat.mul_div_cancel _ (by decide)
    refine .seq (walk_spec (by rw [hp] at hmax ⊢; omega) false) _ le_rfl fun pte => ?_
    rw [hva, Walked]
    split
    · rw [add_assoc]
      refine .fact fun h0 => absurd (h0 rfl) fun h => ?_
      rw [h] at hv
      exact hv (Nat.zero_and _)
    · refine .seq load_slot _ le_rfl fun v => ?_
      rw [add_assoc]
      refine .fact fun he => ?_
      subst he
      rw [if_neg hv, if_neg hleaf]
      have hfree : Triple (world K) (if doFree = true then page (PTE2PA (leaf v0)) else 0)
          (Code.when (doFree = true) (kfree (PTE2PA (leaf v0)))) fun _ => 0 :=
        .when (fun h => by rw [if_pos h]; exact kfree_spec) fun h => by rw [if_neg h]
      refine .seq hfree _ (add_left_comm _ _ _).le fun _ => ?_
      rw [zero_add]
      refine .seq (store_slot (by decide)) _ le_rfl fun _ => ?_
      have hnext : u64 (v0 * PGSIZE + PGSIZE) = (v0 + 1) * PGSIZE := by
        rw [u64, hp] at *
        omega
      rw [show v0 + (np + 1) = v0 + 1 + np by omega] at hmax ⊢
      rw [hnext, ← clearRange_succ]
      refine .conseq (ih hmax (by omega) fun k h1 h2 => ?_) ?_ fun _ => le_rfl
      · rw [Function.update_of_ne (by omega)]
        exact hmap k (by omega) (by omega)
      · refine add_le_add_right (Finset.sum_le_sum fun k hk => ?_) _
        rw [Function.update_of_ne]
        have := (Finset.mem_Ico.mp hk).1
        omega

/-- Unmapping pages that are mapped; with `doFree` it takes their memory. -/
theorem uvmunmap_spec {v0 np : Nat} {doFree : Bool} (hmax : (v0 + np) * PGSIZE ≤ MAXVA)
    (hmap : ∀ k, v0 ≤ k → k < v0 + np → Maps (leaf k)) :
    Triple (world K)
      (PT 2 pg leaf + ∑ k ∈ Finset.Ico v0 (v0 + np), if doFree then page (PTE2PA (leaf k)) else 0)
      (uvmunmap pg (v0 * PGSIZE) np doFree) fun _ => PT 2 pg (clearRange leaf v0 np) := by
  have hm : MAXVA = 2 ^ 38 := rfl
  have hp : PGSIZE = 4096 := rfl
  have hlim : u64 (v0 * PGSIZE + np * PGSIZE) = (v0 + np) * PGSIZE := by
    rw [← Nat.add_mul, u64]
    exact Nat.mod_eq_of_lt (by omega)
  rw [uvmunmap, if_neg (by rw [hp]; omega), hlim]
  exact uvmunmapLoop_spec hmax (by rw [vaPages]; rw [hp] at hmax ⊢; omega) hmap

end Xv6
