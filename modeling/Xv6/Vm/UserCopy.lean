/-
Reading and writing user memory: fork's copy of an address space, the stack guard page,
and the copies between user and kernel memory. All of them keep the shape of the spaces
they touch. A copy to a user address goes to a page the space owns, or fails.
-/
import Xv6.Vm.AddressSpace

namespace Xv6

open Lib Lib.Own Mem

variable {K : Layout} {root tf n : Nat} {leaf : Nat → Nat} {data : Nat → Page}

/-! ## Looking up a page -/

theorem walk_mapped_spec {va : Nat} (h : va < MAXVA) (hm : leaf (va / PGSIZE) ≠ 0) :
    Triple (world K) (PT 2 root leaf) (walk root va false) fun pte => fact (pte ≠ 0) +
      Slot pte (leaf (va / PGSIZE)) fun v => PT 2 root (Function.update leaf (va / PGSIZE) v) := by
  refine (walk_spec h false).conseq le_rfl fun pte => ?_
  rw [Walked]
  split
  · exact fact_add_le fun h0 => absurd (h0 rfl) hm
  · next hp => exact le_fact_add hp le_rfl

/-- What walkaddr finds: the physical page of a user page. -/
def userPa (leaf : Nat → Nat) (va : Nat) : Nat :=
  if va < MAXVA ∧ Flag (leaf (va / PGSIZE)) PTE_V ∧ Flag (leaf (va / PGSIZE)) PTE_U then PTE2PA (leaf (va / PGSIZE)) else 0

theorem walkaddr_spec (va : Nat) :
    Triple (world K) (PT 2 root leaf) (walkaddr root va) fun r => fact (r = userPa leaf va) + PT 2 root leaf := by
  rw [walkaddr]
  split
  · next h => exact .ret (le_fact_add (if_neg (by omega)).symm le_rfl)
  · next h =>
    refine .bind (walk_spec (by omega) false) fun pte => ?_
    rw [Walked]
    split
    · refine .fact fun h0 => .ret (le_fact_add ?_ le_rfl)
      rw [userPa, h0 rfl, if_neg (by simp [Flag])]
    · refine .bind load_slot fun v => .fact fun hv => ?_
      subst hv
      have hback : Slot pte (leaf (va / PGSIZE)) (fun v => PT 2 root (Function.update leaf (va / PGSIZE) v)) ≤
          PT 2 root leaf := slot_close.trans (by rw [Function.update_eq_self])
      split
      · next hv => exact .ret (le_fact_add (by rw [userPa, if_neg fun hh => hh.2.1 hv]) hback)
      · next hv =>
        split
        · next hu => exact .ret (le_fact_add (by rw [userPa, if_neg fun hh => hh.2.2 hu]) hback)
        · next hu => exact .ret (le_fact_add (by rw [userPa, if_pos ⟨by omega, hv, hu⟩]) hback)

/-- A user page is one of the space's own. -/
theorem Shape.lt_of_user (h : Shape K tf n leaf) {va : Nat} (hlt : va < MAXVA) (hv : Flag (leaf (va / PGSIZE)) PTE_V)
    (hu : Flag (leaf (va / PGSIZE)) PTE_U) : va / PGSIZE < n := by
  by_contra hk
  have hlt' : va / PGSIZE < 512 ^ 3 := by
    rw [show MAXVA = 2 ^ 38 from rfl] at hlt
    rw [show PGSIZE = 4096 from rfl]
    omega
  by_cases ht : va / PGSIZE = trapframeVpn
  · rw [ht, h.trapframe, trapframePte, Nat.or_assoc, Flag, or_and_flag (by decide) (by decide)] at hu
    exact hu rfl
  by_cases htr : va / PGSIZE = trampolineVpn
  · rw [htr, h.trampoline, Layout.trampolinePte, Nat.or_assoc, Flag, or_and_flag (by decide) (by decide)] at hu
    exact hu rfl
  rw [h.rest _ (by omega) hlt' ht htr] at hv
  exact hv (Nat.zero_and _)

/-- A user address lies in one of the space's own pages. -/
theorem Shape.user_lt (h : Shape K tf n leaf) {va : Nat} (hpa : userPa leaf va ≠ 0) :
    va / PGSIZE < n ∧ userPa leaf va = PTE2PA (leaf (va / PGSIZE)) := by
  rw [userPa] at hpa ⊢
  split at hpa
  · next hh => exact ⟨h.lt_of_user hh.1 hh.2.1 hh.2.2, if_pos hh⟩
  · exact absurd rfl hpa

/-! ## Copies between user and kernel memory -/

theorem PGROUNDDOWN_page_add {pg off : Nat} (h : pg ∈ K.pages) (hoff : off < PGSIZE) : PGROUNDDOWN (pg + off) = pg := by
  have ha := (Layout.mem_pages.mp h).1
  simp only [PGROUNDDOWN, PGSIZE] at ha hoff ⊢
  omega

theorem sat_userPages_mem {s : Mem} {R : Own Nat Page} {k : Nat} (hk : k < n)
    (h : (world K).Sat s (userPages n leaf data + R)) : PTE2PA (leaf k) ∈ K.pages := by
  rw [userPages_split hk, add_assoc] at h
  exact sat_cell_mem h

theorem modifyUser_spec {k off : Nat} (f : Page → Page) (hk : k < n) (hoff : off < PGSIZE) :
    Triple (world K) (userPages n leaf data) (modifyPage (PTE2PA (leaf k) + off) f)
      fun _ => userPages n leaf (Function.update data k (f (data k))) := by
  refine .assume (fun R s h => sat_userPages_mem hk h) fun hmem => ?_
  rw [userPages_split hk]
  exact ((modifyPage_spec f (PGROUNDDOWN_page_add hmem hoff)).frame _).conseq le_rfl fun _ => userPages_update hk _

theorem readUser_spec {α : Type} {k off : Nat} (f : Page → α) (hk : k < n) (hoff : off < PGSIZE) :
    Triple (world K) (userPages n leaf data) (readPage (PTE2PA (leaf k) + off) f)
      fun v => fact (v = f (data k)) + userPages n leaf data := by
  refine .assume (fun R s h => sat_userPages_mem hk h) fun hmem => ?_
  rw [userPages_split hk]
  exact ((readPage_spec f (PGROUNDDOWN_page_add hmem hoff)).frame _).conseq le_rfl fun v => (add_assoc _ _ _).le

/-- A store at the start of a user page. -/
theorem storeUser_spec {k : Nat} (bytes : List UInt8) (hk : k < n) :
    Triple (world K) (userPages n leaf data) (storeBytes (PTE2PA (leaf k)) bytes)
      fun _ => ex fun data' => userPages n leaf data' := by
  rw [storeBytes, ← Nat.add_zero (PTE2PA (leaf k))]
  exact (modifyUser_spec _ hk (by decide)).conseq le_rfl fun _ => le_ex _ le_rfl

theorem sub_PGROUNDDOWN_lt (a : Nat) : a - PGROUNDDOWN a < PGSIZE := by
  simp only [PGROUNDDOWN, PGSIZE]
  omega

/-- copyout changes nothing but the contents of the space's own pages. -/
theorem copyoutLoop_spec {fuel dstva : Nat} {src : List UInt8} :
    Triple (world K) (Space K root tf n leaf data) (copyoutLoop root fuel dstva src)
      fun _ => ex fun data' => Space K root tf n leaf data' := by
  induction fuel generalizing dstva src data with
  | zero => cases src <;> exact .ret (le_ex data le_rfl)
  | succ fuel ih =>
    cases src with
    | nil => exact .ret (le_ex data le_rfl)
    | cons b src =>
      rw [copyoutLoop]
      · refine .fact fun h => .seq (walkaddr_spec _) _ le_rfl fun pa => ?_
        rw [add_assoc]
        refine .fact fun hpa => ?_
        split
        · exact .ret (le_ex data (le_fact_add h le_rfl))
        · next h0 =>
          subst hpa
          obtain ⟨hk, he⟩ := h.user_lt h0
          rw [he]
          refine .seq (modifyUser_spec _ hk (sub_PGROUNDDOWN_lt dstva)) _ (add_comm _ _).le fun _ => ?_
          refine ih.conseq (le_fact_add h (add_comm _ _).le) fun _ => le_rfl
      · simp

theorem copyout_spec {dstva : Nat} {src : List UInt8} :
    Triple (world K) (Space K root tf n leaf data) (copyout root dstva src)
      fun _ => ex fun data' => Space K root tf n leaf data' := copyoutLoop_spec

/-- copyin only reads. -/
theorem copyinLoop_spec {fuel srcva len : Nat} {dst : List UInt8} :
    Triple (world K) (Space K root tf n leaf data) (copyinLoop root fuel srcva len dst)
      fun _ => Space K root tf n leaf data := by
  induction fuel generalizing srcva len dst with
  | zero => exact .ret le_rfl
  | succ fuel ih =>
    rw [copyinLoop]
    split
    · exact .ret le_rfl
    refine .fact fun h => .seq (walkaddr_spec _) _ le_rfl fun pa => ?_
    rw [add_assoc]
    refine .fact fun hpa => ?_
    split
    · exact .ret (le_fact_add h le_rfl)
    · next h0 =>
      subst hpa
      obtain ⟨hk, he⟩ := h.user_lt h0
      rw [he]
      refine .seq (readUser_spec _ hk (sub_PGROUNDDOWN_lt srcva)) _ (add_comm _ _).le fun bytes => ?_
      rw [add_assoc]
      exact .fact fun _ => ih.conseq (le_fact_add h (add_comm _ _).le) fun _ => le_rfl

theorem copyin_spec {srcva len : Nat} :
    Triple (world K) (Space K root tf n leaf data) (copyin root srcva len) fun _ => Space K root tf n leaf data :=
  copyinLoop_spec

theorem copyinstrLoop_spec {fuel srcva max : Nat} {dst : List UInt8} :
    Triple (world K) (Space K root tf n leaf data) (copyinstrLoop root fuel srcva max dst)
      fun _ => Space K root tf n leaf data := by
  induction fuel generalizing srcva max dst with
  | zero => exact .ret le_rfl
  | succ fuel ih =>
    rw [copyinstrLoop]
    split
    · exact .ret le_rfl
    refine .fact fun h => .seq (walkaddr_spec _) _ le_rfl fun pa => ?_
    rw [add_assoc]
    refine .fact fun hpa => ?_
    split
    · exact .ret (le_fact_add h le_rfl)
    · next h0 =>
      subst hpa
      obtain ⟨hk, he⟩ := h.user_lt h0
      rw [he]
      refine .seq (readUser_spec _ hk (sub_PGROUNDDOWN_lt srcva)) _ (add_comm _ _).le fun bytes => ?_
      rw [add_assoc]
      refine .fact fun _ => ?_
      split
      · exact .ret (le_fact_add h (add_comm _ _).le)
      · exact ih.conseq (le_fact_add h (add_comm _ _).le) fun _ => le_rfl

theorem copyinstr_spec {srcva max : Nat} :
    Triple (world K) (Space K root tf n leaf data) (copyinstr root srcva max) fun _ => Space K root tf n leaf data :=
  copyinstrLoop_spec

/-! ## The stack guard page -/

theorem clearU_flag {w k : Nat} (h : (2 ^ 64 - 1 - PTE_U) &&& k = k) : (w &&& (2 ^ 64 - 1 - PTE_U)) &&& k = w &&& k := by
  rw [Nat.and_assoc, h]

theorem PTE2PA_clearU {w : Nat} (hw : w < 2 ^ 64) : PTE2PA (w &&& (2 ^ 64 - 1 - PTE_U)) = PTE2PA w := by
  rw [PTE2PA, PTE2PA, Nat.shiftRight_and_distrib, show (2 ^ 64 - 1 - PTE_U) >>> 10 = 2 ^ 54 - 1 from rfl,
    Nat.and_two_pow_sub_one_eq_mod, Nat.mod_eq_of_lt]
  rw [Nat.shiftRight_eq_div_pow]
  omega

/-- A page that loses its user flag stays mapped and readable. -/
theorem Shape.clearU (h : Shape K tf n leaf) {k : Nat} (hk : k < n) :
    Shape K tf n (Function.update leaf k (leaf k &&& (2 ^ 64 - 1 - PTE_U))) := by
  have hf := h.fits
  have h1 := trapframeVpn_eq
  have h2 := trampolineVpn_eq
  refine ⟨hf, fun j hj => ?_, ?_, ?_, fun j hj hlt ht htr => ?_⟩
  · rw [Function.update_apply]
    split
    · rw [Flag, Flag, clearU_flag (by decide), clearU_flag (by decide)]
      exact h.user k hk
    · exact h.user j hj
  · rw [Function.update_of_ne (by omega)]
    exact h.trapframe
  · rw [Function.update_of_ne (by omega)]
    exact h.trampoline
  · rw [Function.update_of_ne (by omega)]
    exact h.rest j hj hlt ht htr

theorem slot_value_lt {a v : Nat} {k : Nat → Own Nat Page} : Slot a v k ≤ fact (v < 2 ^ 64) + Slot a v k := by
  refine fun m S hS => holds_fact_add.mpr ⟨?_, hS⟩
  obtain ⟨p, hp⟩ := hS
  rw [holds_fact_add] at hp
  exact hp.1.2.2 ▸ (Buffer.getLE_lt _ _ _).trans_le (by decide)

theorem uvmclear_spec {k : Nat} (hk : k < n) :
    Triple (world K) (Space K root tf n leaf data) (uvmclear root (k * PGSIZE))
      fun _ => Space K root tf n (Function.update leaf k (leaf k &&& (2 ^ 64 - 1 - PTE_U))) data := by
  refine .fact fun h => ?_
  have hf := h.fits
  have hva : k * PGSIZE / PGSIZE = k := Nat.mul_div_cancel _ (by decide)
  have hlt : k * PGSIZE < MAXVA := by
    rw [trapframeVpn_eq] at hf
    rw [show MAXVA = 2 ^ 38 from rfl, show PGSIZE = 4096 from rfl]
    omega
  have hne : leaf (k * PGSIZE / PGSIZE) ≠ 0 := by
    rw [hva]
    intro h0
    have := (h.user k hk).1
    rw [h0] at this
    exact this (Nat.zero_and _)
  rw [uvmclear]
  refine .seq (walk_mapped_spec hlt hne) _ le_rfl fun pte => ?_
  rw [hva, add_assoc]
  refine .fact fun hp => ?_
  rw [if_neg hp]
  refine .seq load_slot _ le_rfl fun v => ?_
  rw [add_assoc]
  refine .fact fun hv => ?_
  subst hv
  refine .conseq (P := _) ?_ (add_le_add_left slot_value_lt _) fun _ => le_rfl
  rw [add_assoc]
  refine .fact fun hw => ?_
  refine ((store_slot (Nat.and_le_left.trans_lt hw)).frame _).conseq le_rfl fun _ => ?_
  refine le_fact_add (h.clearU hk) (add_le_add_right (Finset.sum_le_sum fun j _ => ?_) _)
  rw [Function.update_apply]
  split
  · next hj => rw [PTE2PA_clearU hw, hj]
  · exact le_rfl

/-! ## Copying an address space -/

theorem load_keeps (a n : Nat) : (load a n).Keeps id := by
  refine .bind ?_ fun _ => .get fun s => .pure _
  rw [access]
  exact .ite (.pure _) (.panic _)

theorem walkFrom_keeps {va l pg : Nat} : (walkFrom va false l pg).Keeps id := by
  induction l generalizing pg with
  | zero => exact .pure _
  | succ l ih => exact .bind (load_keeps _ _) fun v => .ite ih (.pure _)

/-- Looking up a mapped page changes nothing. -/
theorem lookup_mapped {va : Nat} (h : va < MAXVA) (hm : leaf (va / PGSIZE) ≠ 0) (hs : (world K).Sat s (PT 2 root leaf + R)) :
    ∃ pte, walk root va false s = .ok (pte, s) ∧ pte ≠ 0 ∧ load pte 8 s = .ok (leaf (va / PGSIZE), s) := by
  obtain ⟨pte, s₁, hw, hs₁⟩ := walk_mapped_spec h hm R s hs
  obtain rfl : s₁ = s := by
    rw [Mem.walk, if_neg (by omega)] at hw
    exact walkFrom_keeps s pte s₁ hw
  rw [add_assoc, World.sat_fact_add] at hs₁
  obtain ⟨v, s₂, hl, hs₂⟩ := load_slot R s₁ hs₁.2
  obtain rfl : s₂ = s₁ := load_keeps pte 8 s₁ v s₂ hl
  rw [add_assoc, World.sat_fact_add] at hs₂
  exact ⟨pte, hw, hs₁.1, hs₂.1 ▸ hl⟩

/-- The first `n` pages of the child are the parent's: same flags, same contents. -/
structure Copied (n : Nat) (leaf : Nat → Nat) (data : Nat → Page) (leaf₀ leaf' : Nat → Nat) (data' : Nat → Page) : Prop where
  same : ∀ k < n, PTE_FLAGS (leaf' k) = PTE_FLAGS (leaf k) ∧ data' k = data k
  above : ∀ k, n ≤ k → leaf' k = leaf₀ k

theorem or_one_of_odd {x : Nat} (h : x &&& 1 ≠ 0) : x ||| 1 = x := by
  have h1 : x % 2 = 1 := by
    rw [Nat.and_one_is_mod] at h
    omega
  have h2 : (x / 2) <<< 1 ||| 1 = x := by
    rw [← Nat.shiftLeft_add_eq_or_of_lt (by decide), Nat.shiftLeft_eq]
    omega
  rw [← h2, Nat.or_assoc, Nat.or_self]

theorem flags_or_valid {w : Nat} (h : Flag w PTE_V) : PTE_FLAGS w ||| PTE_V = PTE_FLAGS w := by
  refine or_one_of_odd ?_
  rw [flags_and (by decide)]
  exact h

theorem Copied.push {i : Nat} {leaf₀ leaf' : Nat → Nat} {data' : Nat → Page} {w : Nat}
    (h : Copied i leaf data leaf₀ leaf' data') (hw : PTE_FLAGS w = PTE_FLAGS (leaf i)) :
    Copied (i + 1) leaf data leaf₀ (Function.update leaf' i w) (Function.update data' i (data i)) := by
  refine ⟨fun k hk => ?_, fun k hk => ?_⟩
  · simp only [Function.update_apply]
    split
    · next he =>
      subst he
      exact ⟨hw, rfl⟩
    · exact h.same k (by omega)
  · rw [Function.update_of_ne (by omega)]
    exact h.above k (by omega)

theorem Maps.congr {v w : Nat} (h : Maps v) (he : PTE_FLAGS w = PTE_FLAGS v) : Maps w := by
  refine ⟨?_, he ▸ h.2⟩
  rw [Flag, ← flags_and (by decide), he, flags_and (by decide)]
  exact h.1

/-- A copy has the shape of what it copies. -/
theorem Copied.shape {tf' : Nat} {leaf₀ leaf' : Nat → Nat} {data' : Nat → Page} (hc : Copied n leaf data leaf₀ leaf' data')
    (h : Shape K tf n leaf) (h0 : Shape K tf' 0 leaf₀) : Shape K tf' n leaf' where
  fits := h.fits
  user k hk := by
    obtain ⟨hv, hr⟩ := h.user k hk
    rw [Flag, Flag, ← @flags_and (leaf' k) _ (by decide), ← @flags_and (leaf' k) _ (by decide), (hc.same k hk).1,
      flags_and (by decide), flags_and (by decide)]
    exact ⟨hv, hr⟩
  trapframe := (hc.above _ h.fits).trans h0.trapframe
  trampoline := (hc.above _ (h.fits.trans (by decide))).trans h0.trampoline
  rest k hk hlt ht htr := (hc.above k hk).trans (h0.rest k (Nat.zero_le k) hlt ht htr)

/-- What uvmcopy leaves in the child's table: a full copy, or nothing again. -/
def CopyDone (new n : Nat) (leaf : Nat → Nat) (data : Nat → Page) (leaf₀ : Nat → Nat) (r : Int) : Own Nat Page :=
  if r = 0 then ex fun p : (Nat → Nat) × (Nat → Page) =>
    fact (Copied n leaf data leaf₀ p.1 p.2) + (PT 2 new p.1 + userPages n p.1 p.2)
  else fact (r = -1) + PT 2 new leaf₀

section

variable {old new sz : Nat} {leaf₀ : Nat → Nat} {ram₀ : Nat → Page} {S : Multiset Nat}

/-- The page copied is one of the parent's. -/
theorem copyPage_user {mem i : Nat} (h : (PT 2 old leaf + userPages n leaf data).holds ram₀ S) (hi : i < n) :
    Triple (world K) (cell mem (Buffer.fill 5) + asIs ram₀ S) (copyPage mem (PTE2PA (leaf i)))
      fun _ => cell mem (data i) + asIs ram₀ S := by
  rw [userPages_split hi] at h
  obtain ⟨S₁, _, rfl, -, S₂, S₃, rfl, hc, -⟩ := h
  have hle : asIs ram₀ S₂ ≤ cell (PTE2PA (leaf i)) (data i) := asIs_le hc
  have hge : cell (PTE2PA (leaf i)) (data i) ≤ asIs ram₀ S₂ := by
    rintro m T ⟨rfl, hm⟩
    obtain ⟨rfl, hd⟩ := hc
    refine ⟨rfl, fun l hl => ?_⟩
    rw [Multiset.mem_singleton.mp hl, hm, hd]
  rw [asIs_add, asIs_add]
  have hcopy : Triple (world K) (cell mem (Buffer.fill 5) + cell (PTE2PA (leaf i)) (data i))
      (copyPage mem (PTE2PA (leaf i))) _ := copyPage_spec
  refine (hcopy.frame (asIs ram₀ S₁ + asIs ram₀ S₃)).conseq ?_ fun _ => ?_
  · rw [add_assoc, add_left_comm (asIs ram₀ S₁)]
    exact add_le_add_right (add_le_add_left hle _) _
  · rw [add_assoc, add_left_comm (asIs ram₀ S₁)]
    exact add_le_add_right (add_le_add_left hge _) _

/-- The parent's memory `S` is left as it is. -/
theorem uvmcopyLoop_spec {i fuel : Nat} {leaf' : Nat → Nat} {data' : Nat → Page}
    (hold : (PT 2 old leaf + userPages n leaf data).holds ram₀ S) (hmap : ∀ k < n, Maps (leaf k))
    (hn : n = pagesBelow sz) (hmax : n * PGSIZE ≤ MAXVA) (h0 : ∀ k < n, leaf₀ k = 0) (hi : i ≤ n)
    (hc : Copied i leaf data leaf₀ leaf' data') (hfuel : n < fuel + i) :
    Triple (world K) (asIs ram₀ S + (PT 2 new leaf' + userPages i leaf' data'))
      (uvmcopyLoop old new sz fuel (i * PGSIZE)) fun r => asIs ram₀ S + CopyDone new n leaf data leaf₀ r := by
  induction fuel generalizing i leaf' data' with
  | zero => omega
  | succ fuel ih =>
    have hva : i * PGSIZE / PGSIZE = i := Nat.mul_div_cancel _ (by decide)
    have hnext : u64 (i * PGSIZE + PGSIZE) = (i + 1) * PGSIZE := by
      rw [show MAXVA = 2 ^ 38 from rfl, show PGSIZE = 4096 from rfl] at hmax
      rw [u64, show PGSIZE = 4096 from rfl]
      omega
    have hbelow : i * PGSIZE ≤ MAXVA := (Nat.mul_le_mul_right _ hi).trans hmax
    have hback : Triple (world K) (asIs ram₀ S + (PT 2 new leaf' + userPages i leaf' data'))
        (uvmunmap new 0 i true >>= fun _ => pure (-1)) fun r => asIs ram₀ S + CopyDone new n leaf data leaf₀ r := by
      have hun : Triple (world K) _ (uvmunmap new (0 * PGSIZE) i true) fun _ => PT 2 new (clearRange leaf' 0 i) :=
        uvmunmap_spec (by rwa [zero_add]) fun k _ hk => (hmap k (by omega)).congr (hc.same k (by omega)).1
      rw [Nat.zero_mul] at hun
      refine .seq hun (asIs ram₀ S) ?_ fun _ => .ret ?_
      · rw [add_comm, zero_add]
        exact add_le_add_left (add_le_add_right (Finset.sum_le_sum fun k _ => cell_le_page) _) _
      · rw [CopyDone, if_neg (by decide), fact_of rfl, zero_add, add_comm]
        refine add_le_add_right (PT_congr fun k hk => ?_) _
        rw [clearRange]
        split
        · exact (h0 k (by omega)).symm
        · exact hc.above k (by omega)
    rw [uvmcopyLoop]
    split
    · next ha =>
      have hin : i < n := hn ▸ lt_pagesBelow.mpr ha
      obtain ⟨hv, -⟩ := hmap i hin
      have hne : leaf (i * PGSIZE / PGSIZE) ≠ 0 := by
        rw [hva]
        intro hz
        rw [hz] at hv
        exact hv (Nat.zero_and _)
      have hlt : i * PGSIZE < MAXVA := by
        rw [show PGSIZE = 4096 from rfl] at *
        omega
      -- The parent's entry is looked up in memory that stays as it is.
      intro R s hs
      have hs' : (world K).Sat s (PT 2 old leaf + (userPages n leaf data + ((PT 2 new leaf' + userPages i leaf' data') + R))) := by
        rw [← add_assoc, ← add_assoc]
        exact hs.mono (add_le_add_left (add_le_add_left (asIs_le hold) _) _)
      obtain ⟨pte, hw, hp, hl⟩ := lookup_mapped hlt hne hs'
      rw [hva] at hl
      rw [Code.bind_ok hw, if_neg hp, Code.bind_ok hl, if_neg hv]
      refine Triple.seq kalloc_spec _ (zero_add _).symm.le (fun mem => ?_) R s hs
      split
      · rw [zero_add, hva]
        exact hback
      · refine .seq (copyPage_user hold hin) (PT 2 new leaf' + userPages i leaf' data') (add_assoc _ _ _).symm.le fun _ => ?_
        have hperm : PTE_FLAGS (leaf i) ||| PTE_V < 2 ^ 10 := by
          rw [flags_or_valid hv]
          exact PTE_FLAGS_lt _
        have hfree : leaf' i = 0 := (hc.above i le_rfl).trans (h0 i hin)
        refine .seq (map_page_spec hperm hfree) (asIs ram₀ S) (le_of_eq (by abel)) fun r => ?_
        by_cases hr0 : r = 0
        · rw [if_pos hr0, if_neg (not_not.mpr hr0), hnext, add_comm]
          exact ih hin (hc.push ((PTE_FLAGS_or hperm).trans (flags_or_valid hv))) (by omega)
        · rw [if_neg hr0, if_pos hr0, add_assoc]
          rw [add_assoc (cell mem (data i))]
          refine .fact fun _ => .seq kfree_spec _ (add_le_add_left cell_le_page _) fun _ => ?_
          rw [zero_add, add_comm, hva]
          exact hback
    · next ha =>
      have he : i = n := by
        rw [← lt_pagesBelow] at ha
        omega
      subst he
      refine .ret (add_le_add_right ?_ _)
      rw [CopyDone, if_pos rfl]
      exact le_ex (leaf', data') (le_fact_add hc le_rfl)

theorem userPages_zero : userPages 0 leaf data = 0 := Finset.sum_empty

/-- fork's copy of the parent's memory. -/
theorem uvmcopy_spec (hold : (PT 2 old leaf + userPages n leaf data).holds ram₀ S) (hmap : ∀ k < n, Maps (leaf k))
    (hn : n = pagesBelow sz) (h0 : ∀ k < n, leaf₀ k = 0) :
    Triple (world K) (asIs ram₀ S + PT 2 new leaf₀) (uvmcopy old new sz)
      fun r => asIs ram₀ S + CopyDone new n leaf data leaf₀ r := by
  refine .assume (φ := n ≤ 32768) (fun R s hs => ?_) fun hle => ?_
  · rw [add_assoc] at hs
    have hs := hs.mono (add_le_add_left (asIs_le hold) _)
    rw [add_comm (PT 2 old leaf), add_assoc] at hs
    exact sat_userPages_le hs
  have hmax : n * PGSIZE ≤ MAXVA := (Nat.mul_le_mul_right _ hle).trans (by decide)
  have hc : Copied 0 leaf data leaf₀ leaf₀ data := ⟨fun k hk => absurd hk (Nat.not_lt_zero k), fun _ _ => rfl⟩
  have hfuel : n < vaPages + 0 := by
    rw [show vaPages = 67108865 from rfl]
    omega
  have hloop : Triple (world K) _ (uvmcopyLoop old new sz vaPages (0 * PGSIZE)) _ :=
    uvmcopyLoop_spec hold hmap hn hmax h0 (Nat.zero_le n) hc hfuel
  rw [Nat.zero_mul] at hloop
  refine hloop.conseq (add_le_add_right ?_ _) fun _ => le_rfl
  rw [userPages_zero, add_zero]

/-- An address space of `n` pages with the flags of `leaf` and the contents `data`. -/
def CopyOf (K : Layout) (root tf n : Nat) (leaf : Nat → Nat) (data : Nat → Page) : Own Nat Page :=
  ex fun p : (Nat → Nat) × (Nat → Page) =>
    fact (∀ k < n, PTE_FLAGS (p.1 k) = PTE_FLAGS (leaf k) ∧ p.2 k = data k) + Space K root tf n p.1 p.2

/-- The same when the parent's and the child's table are those of processes. -/
theorem uvmcopy_space_spec {tf' : Nat} {data₀ : Nat → Page} (hold : (Space K old tf n leaf data).holds ram₀ S)
    (hn : n = pagesBelow sz) :
    Triple (world K) (asIs ram₀ S + Space K new tf' 0 leaf₀ data₀) (uvmcopy old new sz) fun r => asIs ram₀ S +
      if r = 0 then CopyOf K new tf' n leaf data else fact (r = -1) + Space K new tf' 0 leaf₀ data₀ := by
  rw [Space, holds_fact_add] at hold
  obtain ⟨h, hold⟩ := hold
  rw [Space, userPages_zero, add_zero, add_left_comm]
  refine .fact fun h0 => ?_
  have hfree (k : Nat) (hk : k < n) : leaf₀ k = 0 := by
    have := h.fits
    have h1 := trapframeVpn_eq
    have h2 := trampolineVpn_eq
    exact h0.rest k (Nat.zero_le k) (by omega) (by omega) (by omega)
  refine (uvmcopy_spec hold (fun k hk => h.maps hk) hn hfree).conseq le_rfl fun r => add_le_add_right ?_ _
  rw [CopyDone]
  split
  · exact ex_le fun p => fact_add_le fun hc => le_ex p (le_fact_add hc.same (le_fact_add (hc.shape h h0) le_rfl))
  · exact add_le_add_right (le_fact_add h0 le_rfl) _

end

end Xv6
