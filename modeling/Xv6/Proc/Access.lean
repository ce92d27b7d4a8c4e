/-
User memory byte by byte. A page table, read off memory as walk reads it, says for each
virtual address whether a user may read it and which byte is there; `copyin` and
`copyinstr` work in page pieces, and return what reading one byte after the other would
(`copyin_copyinstr_bytewise`).

Nothing is asked of the table but that what walk and the copies come across is memory:
its pages may be shared, and the table may be its own user page.
-/
import Xv6.Proc.Memory

namespace Xv6

open Lib Lib.Own Mem

/-! ## A page table in memory -/

/-- `pg` is a page of physical memory. -/
structure InRam (pg : Nat) : Prop where
  aligned : pg % PGSIZE = 0
  le : KERNBASE ≤ pg
  lt : pg < PHYSTOP

theorem InRam.ne_zero {pg : Nat} (h : InRam pg) : pg ≠ 0 := by
  have := h.le
  rw [KERNBASE] at this
  omega

/-- The tables walk reads on its way from the table in `pg` to the entry of page `n`. -/
def walkTables (ram : Nat → Page) : Nat → Nat → Nat → List Nat
  | 0, pg, _ => [pg]
  | l + 1, pg, n => pg ::
    let pte := entryAt ram pg (n / 512 ^ (l + 1))
    if Flag pte PTE_V then walkTables ram l (PTE2PA pte) (n % 512 ^ (l + 1)) else []

/-- The entry of a virtual address. -/
def pteAt (m : Mem) (root va : Nat) : Nat := leafAt m.ram 2 root (va / PGSIZE)

/-- A user may read the byte at `va`. -/
def Accessible (m : Mem) (root va : Nat) : Prop :=
  va < MAXVA ∧ Flag (pteAt m root va) PTE_V ∧ Flag (pteAt m root va) PTE_U

instance (m : Mem) (root va : Nat) : Decidable (Accessible m root va) := inferInstanceAs (Decidable (_ ∧ _ ∧ _))

/-- A user may write the byte at `va`. -/
def Writable (m : Mem) (root va : Nat) : Prop := Accessible m root va ∧ Flag (pteAt m root va) PTE_W

instance (m : Mem) (root va : Nat) : Decidable (Writable m root va) := inferInstanceAs (Decidable (_ ∧ _))

/-- The byte that a user reads at `va`. -/
def userByte (m : Mem) (root va : Nat) : UInt8 := (m.ram (PTE2PA (pteAt m root va))).bytes (va % PGSIZE)

/-- Memory has a page table at `root`: the tables under it, and the pages it gives to the user, are memory. -/
structure TableAt (m : Mem) (root : Nat) : Prop where
  tables : ∀ va < MAXVA, ∀ pg ∈ walkTables m.ram 2 root (va / PGSIZE), InRam pg
  user : ∀ va, Accessible m root va → InRam (PTE2PA (pteAt m root va))

/-- A table whose user pages are pages of their own: no two virtual pages share one, and none is one of the table's. -/
structure UserTable (m : Mem) (root : Nat) : Prop extends TableAt m root where
  distinct : ∀ va va', Accessible m root va → Accessible m root va' →
    PTE2PA (pteAt m root va) = PTE2PA (pteAt m root va') → va / PGSIZE = va' / PGSIZE
  apart : ∀ va va', Accessible m root va → va' < MAXVA →
    PTE2PA (pteAt m root va) ∉ walkTables m.ram 2 root (va' / PGSIZE)

/-! ### The tables of processes -/

section
variable {K : Layout} {l pg root tf n : Nat} {leaf : Nat → Nat} {data : Nat → Page} {S : Multiset Nat} {m : Mem}

theorem InRam.of_mem (h : pg ∈ K.pages) : InRam pg := by
  obtain ⟨hal, hle, hlt⟩ := Layout.mem_pages.mp h
  exact ⟨hal, K.le_kend.trans hle, hlt⟩

/-- What walk reads is what the table's assertion owns. -/
theorem holds_walkTables {ram : Nat → Page} (h : (PT l pg leaf).holds ram S) (hS : ∀ x ∈ S, x ∈ K.pages)
    (hn : n < 512 ^ (l + 1)) : ∀ t ∈ walkTables ram l pg n, t ∈ S := by
  induction l generalizing pg leaf S n with
  | zero =>
    intro t ht
    rw [(holds_table h).1]
    simpa [walkTables] using ht
  | succ l ih =>
    have hpg := holds_PT_mem h
    obtain ⟨kids, S₁, S₂, rfl, h₁, h₂⟩ := h
    obtain ⟨rfl, hw⟩ := holds_table h₁
    have hi : n / 512 ^ (l + 1) < 512 := by
      rw [Nat.div_lt_iff_lt_mul (by positivity)]
      calc n < 512 ^ (l + 1 + 1) := hn
        _ = 512 * 512 ^ (l + 1) := by ring
    intro t ht
    obtain rfl | ht := List.mem_cons.mp ht
    · exact hpg
    dsimp only at ht
    split at ht
    next hv =>
      rw [hw _ hi] at hv ht
      have hk : kids (n / 512 ^ (l + 1)) ≠ 0 := fun h0 => hv (by rw [dirEntry, if_pos h0, Nat.zero_and])
      obtain ⟨S', hle, hc⟩ := holds_of_mem_sum h₂ (mem_entries.mpr hi)
      have hS' : ∀ x ∈ S', x ∈ K.pages := fun x hx =>
        hS x (Multiset.mem_add.mpr (.inr (Multiset.mem_of_le hle hx)))
      rw [child, if_neg hk] at hc
      rw [PTE2PA_dirEntry (hS' _ (holds_PT_mem hc))] at ht
      have := ih hc hS' (Nat.mod_lt _ (by positivity)) t ht
      exact Multiset.mem_add.mpr (.inr (Multiset.mem_of_le hle this))
    next => cases ht

/-- The table of an address space is such a table. -/
theorem holds_userTable (h : (Space K root tf n leaf data).holds m.ram S) (hS : ∀ x ∈ S, x ∈ K.pages)
    (hnd : S.Nodup) : UserTable m root := by
  obtain ⟨hpages, hshape⟩ := holds_space h hS
  rw [Space, holds_fact_add] at h
  obtain ⟨-, S₁, S₂, rfl, h₁, -⟩ := h
  have hS₁ : ∀ x ∈ S₁, x ∈ K.pages := fun x hx => hS x (Multiset.mem_add.mpr (.inl hx))
  obtain ⟨rfl, -⟩ := holds_PT h₁ hS₁
  obtain rfl : S₂ = mappedPages m.ram root := add_left_cancel hpages
  have hvpn {va : Nat} (hva : va < MAXVA) : va / PGSIZE < 512 ^ (2 + 1) := by
    rw [← vpn_lt hva]
    exact Nat.mod_lt _ (by decide)
  have hmem {va : Nat} (ha : Accessible m root va) : va / PGSIZE ∈ userVpns m.ram root := by
    rw [userVpns_eq hshape, Finset.mem_range]
    exact hshape.lt_of_user ha.1 ha.2.1 ha.2.2
  have hwalk {va t : Nat} (hva : va < MAXVA) (ht : t ∈ walkTables m.ram 2 root (va / PGSIZE)) :=
    holds_walkTables h₁ hS₁ (hvpn hva) t ht
  constructor
  · constructor
    · exact fun va hva t ht => .of_mem (hS₁ t (hwalk hva ht))
    · exact fun va ha => .of_mem (hS _ (Multiset.mem_add.mpr (.inr (mem_mappedPages (hmem ha)))))
  · intro va va' ha ha' he
    exact Multiset.inj_on_of_nodup_map (Multiset.nodup_add.mp hnd).2.1 _ (hmem ha) _ (hmem ha') he
  · intro va va' ha hva' ht
    exact Multiset.disjoint_left.mp (Multiset.nodup_add.mp hnd).2.2 (hwalk hva' ht) (mem_mappedPages (hmem ha))

theorem sat_userTable {R : Own Nat Page} (h : (world K).Sat m (Space K root tf n leaf data + R)) : UserTable m root := by
  obtain ⟨T, hT, hsub, S, U, rfl, hS, -⟩ := sat_split h
  have hnd : (K.pages : Multiset Nat).Nodup := Multiset.coe_nodup.mpr K.nodup_pages
  rw [hT, Multiset.nodup_add, Multiset.nodup_add] at hnd
  exact holds_userTable hS (fun x hx => hsub x (Multiset.mem_add.mpr (.inl hx))) hnd.2.1.1

/-- Every live process has such a table. -/
theorem Sys.Inv.userTable {K : Layout} {s : Sys} {p : Fin NPROC} (h : Inv K s) (hp : (s.proc p).state ≠ .UNUSED) :
    UserTable s.mem (s.proc p).pagetable := by
  have hs := (h.live hp).sat
  rw [userMem, add_assoc, add_left_comm (page _), add_left_comm, AnySpace, World.sat_ex_add] at hs
  obtain ⟨q, hq⟩ := hs
  exact sat_userTable hq

end

/-! ## Accesses -/

theorem access_ram {pg off : Nat} (h : InRam pg) (hoff : off < PGSIZE) (s : Mem) :
    access (pg + off) s = .ok ((), s) := by
  have hal := h.aligned
  have hle := h.le
  have hlt := h.lt
  have hstop : PHYSTOP = 557056 * 4096 := rfl
  have hin : KERNBASE ≤ pg + off ∧ pg + off < PHYSTOP := by
    rw [show PGSIZE = 4096 from rfl] at hal hoff
    omega
  rw [access, if_pos hin]
  rfl

theorem page_of_add {pg off : Nat} (h : InRam pg) (hoff : off < PGSIZE) :
    PGROUNDDOWN (pg + off) = pg ∧ (pg + off) % PGSIZE = off := by
  have hal := h.aligned
  simp only [PGROUNDDOWN, PGSIZE] at *
  omega

theorem readPage_ram {α : Type} {pg off : Nat} (f : Page → α) (h : InRam pg) (hoff : off < PGSIZE) (s : Mem) :
    readPage (pg + off) f s = .ok (f (s.ram pg), s) := by
  rw [readPage, Code.bind_ok (access_ram h hoff s), Code.get_bind, (page_of_add h hoff).1]
  rfl

theorem load_entry {pg i : Nat} (h : InRam pg) (hi : i < 512) (s : Mem) :
    load (pg + 8 * i) 8 s = .ok (entryAt s.ram pg i, s) := by
  have hoff : 8 * i < PGSIZE := by rw [show PGSIZE = 4096 from rfl]; omega
  rw [load, readPage_ram _ h hoff, (page_of_add h hoff).2]
  rfl

theorem loadBytes_ram {pg off n : Nat} (h : InRam pg) (hoff : off < PGSIZE) (s : Mem) :
    loadBytes (pg + off) n s = .ok ((s.ram pg).read off n, s) := by
  rw [loadBytes, readPage_ram _ h hoff, (page_of_add h hoff).2]

/-! ## walk -/

theorem index_mod (n l : Nat) : n % 512 ^ (l + 1) / 512 ^ l = n / 512 ^ l % 512 := by
  rw [Nat.pow_succ, Nat.mod_mul_right_div_self]

/-- walk without `alloc` finds the entry, or that there is no table to hold it. -/
theorem walkFrom_eq (m : Mem) (va : Nat) : ∀ (l pg : Nat),
    (∀ t ∈ walkTables m.ram l pg (va / PGSIZE % 512 ^ (l + 1)), InRam t) →
    ∃ r, walkFrom va false l pg m = .ok (r, m) ∧
      (r = 0 ∧ leafAt m.ram l pg (va / PGSIZE % 512 ^ (l + 1)) = 0 ∨
        r ≠ 0 ∧ load r 8 m = .ok (leafAt m.ram l pg (va / PGSIZE % 512 ^ (l + 1)), m))
  | 0, pg, h => by
    have hpg : InRam pg := h pg (by simp [walkTables])
    have hne := hpg.ne_zero
    rw [Nat.zero_add, Nat.pow_one]
    refine ⟨_, rfl, .inr ⟨by omega, ?_⟩⟩
    · rw [PX_eq, Nat.pow_zero, Nat.div_one, load_entry hpg (Nat.mod_lt _ (by decide))]
      rfl
  | l + 1, pg, h => by
    have hpg : InRam pg := h pg (by simp [walkTables])
    have hload := load_entry hpg (Nat.mod_lt (va / PGSIZE / 512 ^ (l + 1)) (by decide)) m
    have hmod : va / PGSIZE % 512 ^ (l + 1 + 1) % 512 ^ (l + 1) = va / PGSIZE % 512 ^ (l + 1) :=
      Nat.mod_mod_of_dvd _ (pow_dvd_pow 512 (Nat.le_succ _))
    rw [walkTables, index_mod, hmod] at h
    rw [walkFrom, PX_eq, Code.bind_ok hload, leafAt, index_mod, hmod]
    dsimp only at h ⊢
    split
    next hv =>
      rw [if_pos hv] at h
      exact walkFrom_eq m va l _ fun t ht => h t (List.mem_cons_of_mem _ ht)
    next hv => exact ⟨0, rfl, .inl ⟨rfl, rfl⟩⟩

/-- walkaddr returns the page of an accessible address, and else 0. -/
theorem walkaddr_eq {m : Mem} {root : Nat} (h : TableAt m root) (va : Nat) :
    walkaddr root va m = .ok (if Accessible m root va then PTE2PA (pteAt m root va) else 0, m) := by
  rw [walkaddr]
  by_cases hva : va < MAXVA
  · have hn := vpn_lt hva
    obtain ⟨r, hr, hfound⟩ := walkFrom_eq m va 2 root (by rw [hn]; exact h.tables va hva)
    rw [hn] at hfound
    rw [if_neg (by omega), Mem.walk, if_neg (by omega), Code.bind_ok hr]
    obtain ⟨rfl, h0⟩ | ⟨hne, hload⟩ := hfound
    · rw [if_pos rfl, if_neg fun hacc => hacc.2.1 (by rw [pteAt, h0, Nat.zero_and])]
      rfl
    · rw [if_neg hne, Code.bind_ok hload]
      change (if pteAt m root va &&& PTE_V = 0 then _ else _ : Code Mem Nat) m = _
      split
      next hv =>
        rw [if_neg fun hacc => hacc.2.1 hv]
        rfl
      next hv =>
        split
        next hu =>
          rw [if_neg fun hacc => hacc.2.2 hu]
          rfl
        next hu =>
          rw [if_pos ⟨hva, hv, hu⟩]
          rfl
  · rw [if_pos (by omega), if_neg fun hacc => hva hacc.1]
    rfl

/-! ## Reading one byte after the other -/

/-- The bytes from `va` on, up to the first that is not accessible and at most `len` of them. -/
def userBytes (m : Mem) (root va : Nat) : Nat → List UInt8
  | 0 => []
  | len + 1 => if Accessible m root va then userByte m root va :: userBytes m root (va + 1) len else []

variable {m : Mem} {root va : Nat}

theorem length_userBytes_le (m : Mem) (root : Nat) : ∀ (va len : Nat), (userBytes m root va len).length ≤ len
  | _, 0 => le_rfl
  | va, len + 1 => by
    rw [userBytes]
    split
    · exact Nat.succ_le_succ (length_userBytes_le m root (va + 1) len)
    · exact Nat.zero_le _

theorem getElem?_userBytes (m : Mem) (root : Nat) : ∀ (va len i : Nat) (b : UInt8),
    (userBytes m root va len)[i]? = some b ↔
      i < len ∧ (∀ j ≤ i, Accessible m root (va + j)) ∧ userByte m root (va + i) = b
  | va, 0, i, b => by simp [userBytes]
  | va, len + 1, i, b => by
    rw [userBytes]
    split
    next ha =>
      cases i with
      | zero => simp [ha]
      | succ i =>
        rw [List.getElem?_cons_succ, getElem?_userBytes m root (va + 1) len i b, Nat.add_right_comm va 1 i]
        refine and_congr (by omega) (and_congr_left fun _ => ⟨fun h j hj => ?_, fun h j hj => ?_⟩)
        · cases j with
          | zero => exact ha
          | succ j => exact Nat.add_right_comm va 1 j ▸ h j (by omega)
        · exact Nat.add_right_comm va 1 j ▸ h (j + 1) (by omega)
    next ha =>
      simp only [List.getElem?_nil, reduceCtorEq, false_iff]
      exact fun h => ha (h.2.1 0 (Nat.zero_le i))

/-- All bytes are there exactly if all addresses are accessible. -/
theorem length_userBytes (m : Mem) (root : Nat) : ∀ (va len : Nat),
    (userBytes m root va len).length = len ↔ ∀ i < len, Accessible m root (va + i)
  | _, 0 => by simp [userBytes]
  | va, len + 1 => by
    rw [userBytes]
    split
    next ha =>
      rw [List.length_cons, Nat.succ_inj, length_userBytes m root (va + 1) len, Nat.forall_lt_succ_left']
      simp [ha, Nat.add_right_comm, Nat.add_assoc]
    next ha =>
      simp only [List.length_nil, (Nat.succ_ne_zero len).symm, false_iff]
      exact fun h => ha (h 0 (Nat.succ_pos len))

/-- Addresses of one page are accessible together. -/
theorem accessible_page (m : Mem) (root : Nat) {i : Nat} (hi : va % PGSIZE + i < PGSIZE) :
    pteAt m root (va + i) = pteAt m root va ∧ (Accessible m root (va + i) ↔ Accessible m root va) := by
  have hdiv : (va + i) / PGSIZE = va / PGSIZE := by
    rw [show PGSIZE = 4096 from rfl] at *
    omega
  have hpte : pteAt m root (va + i) = pteAt m root va := by rw [pteAt, hdiv, pteAt]
  refine ⟨hpte, ?_⟩
  rw [Accessible, hpte, Accessible, show MAXVA = 2 ^ 38 from rfl]
  rw [show PGSIZE = 4096 from rfl] at hi
  refine and_congr_left' ?_
  omega

/-- The bytes of a page are read at once. -/
theorem userBytes_add {k : Nat} : ∀ {n va : Nat}, Accessible m root va → va % PGSIZE + n ≤ PGSIZE →
    userBytes m root va (n + k) =
      (m.ram (PTE2PA (pteAt m root va))).read (va % PGSIZE) n ++ userBytes m root (va + n) k
  | 0, va, _, _ => by rw [Nat.zero_add]; rfl
  | n + 1, va, ha, hn => by
    rw [Nat.add_right_comm, userBytes, if_pos ha]
    cases n with
    | zero => simp [Buffer.read, userByte]
    | succ n =>
      obtain ⟨hpte, hacc⟩ := accessible_page m root (show va % PGSIZE + 1 < PGSIZE by omega)
      have hmod : (va + 1) % PGSIZE = va % PGSIZE + 1 := by
        rw [show PGSIZE = 4096 from rfl] at *
        omega
      rw [userBytes_add (hacc.mpr ha) (by omega), hpte, hmod]
      simp only [Buffer.read, List.range_succ_eq_map (n := n + 1), List.map_cons, List.map_map]
      simp only [userByte, Nat.add_zero, List.cons_append, Function.comp_def, Nat.succ_eq_add_one]
      simp only [Nat.add_assoc, Nat.add_comm 1]

/-! ## The copies -/

theorem length_read {N : Nat} (b : Buffer N) (off n : Nat) : (b.read off n).length = n := by simp [Buffer.read]

theorem add_mod_page (va : Nat) : PGROUNDDOWN va + va % PGSIZE = va ∧ va - PGROUNDDOWN va = va % PGSIZE := by
  simp only [PGROUNDDOWN, PGSIZE]
  omega

/-- The lookup of a copy: the page of `va`, if it is accessible. -/
theorem lookup_eq (h : TableAt m root) (va : Nat) :
    walkaddr root (PGROUNDDOWN va) m = .ok (if Accessible m root va then PTE2PA (pteAt m root va) else 0, m) := by
  have hoff : PGROUNDDOWN va % PGSIZE + va % PGSIZE < PGSIZE := by
    rw [PGROUNDDOWN, Nat.mul_mod_left, Nat.zero_add]
    exact Nat.mod_lt _ (by decide)
  obtain ⟨hpte, hacc⟩ := accessible_page m root hoff
  rw [(add_mod_page va).1] at hpte hacc
  rw [walkaddr_eq h, hpte]
  simp only [hacc]

/-- What is left after a page piece starts on the next page. -/
theorem next_piece {len : Nat} (ha : va < MAXVA) (hlen : 0 < len - min (PGSIZE - va % PGSIZE) len) :
    u64 (PGROUNDDOWN va + PGSIZE) = va + min (PGSIZE - va % PGSIZE) len := by
  have hlt : va % PGSIZE < PGSIZE := Nat.mod_lt _ (by decide)
  have hsplit := (add_mod_page va).1
  have hmax : MAXVA = 2 ^ 38 := rfl
  rw [show PGSIZE = 4096 from rfl] at *
  rw [u64, Nat.mod_eq_of_lt (by omega)]
  omega

theorem copyinLoop_eq (h : TableAt m root) : ∀ {fuel srcva len : Nat} {dst : List UInt8}, len ≤ fuel →
    copyinLoop root fuel srcva len dst m =
      .ok ((if (userBytes m root srcva len).length = len then 0 else -1, dst ++ userBytes m root srcva len), m)
  | 0, srcva, len, dst, hfuel => by
    obtain rfl : len = 0 := by omega
    rw [copyinLoop, userBytes, List.append_nil]
    rfl
  | fuel + 1, srcva, len, dst, hfuel => by
    rw [copyinLoop]
    split
    next h0 =>
      subst h0
      rw [userBytes, List.append_nil]
      rfl
    next h0 =>
      have hlt : srcva % PGSIZE < PGSIZE := Nat.mod_lt _ (by decide)
      rw [Code.bind_ok (lookup_eq h srcva), (add_mod_page srcva).2]
      generalize hn : min (PGSIZE - srcva % PGSIZE) len = n
      obtain ⟨len', rfl⟩ : ∃ k, len = n + k := ⟨len - n, by omega⟩
      by_cases ha : Accessible m root srcva
      · have hpa := h.user srcva ha
        rw [if_pos ha, if_neg hpa.ne_zero, Code.bind_ok (loadBytes_ram hpa hlt m), userBytes_add ha (by omega)]
        rw [copyinLoop_eq h (by omega), Nat.add_sub_cancel_left]
        by_cases hk : len' = 0
        · subst hk
          simp [userBytes, length_read]
        · rw [next_piece ha.1 (by rw [hn]; omega), hn]
          simp [length_read]
      · obtain ⟨k, hk⟩ : ∃ k, n + len' = k + 1 := ⟨n + len' - 1, by omega⟩
        rw [if_neg ha, if_pos rfl, hk, userBytes, if_neg ha, List.append_nil]
        rfl

/-- What copyinstr makes of the bytes `bs` it can read: the string up to the first NUL, if there is one. -/
def upToNul (dst bs : List UInt8) : Int × List UInt8 :=
  match bs.findIdx? (· = 0) with
  | some k => (0, dst ++ bs.take k ++ [0])
  | none => (-1, dst ++ bs)

theorem upToNul_append (dst bs bs' : List UInt8) : upToNul dst (bs ++ bs') =
    match bs.findIdx? (· = 0) with
    | some k => (0, dst ++ bs.take k ++ [0])
    | none => upToNul (dst ++ bs) bs' := by
  rw [upToNul, List.findIdx?_append]
  cases h : bs.findIdx? (· = 0) with
  | some k =>
    have hk : k ≤ bs.length := ((List.findIdx?_eq_some_iff_getElem.mp h).1).le
    simp [List.take_append_of_le_length hk]
  | none =>
    cases h' : bs'.findIdx? (· = 0) with
    | some k => simp [upToNul, h', List.take_append]
    | none => simp [upToNul, h']

theorem copyinstrLoop_eq (h : TableAt m root) : ∀ {fuel srcva max : Nat} {dst : List UInt8}, max ≤ fuel →
    copyinstrLoop root fuel srcva max dst m = .ok (upToNul dst (userBytes m root srcva max), m)
  | 0, srcva, max, dst, hfuel => by
    obtain rfl : max = 0 := by omega
    simp [copyinstrLoop, userBytes, upToNul]
    rfl
  | fuel + 1, srcva, max, dst, hfuel => by
    rw [copyinstrLoop]
    split
    next h0 =>
      subst h0
      simp [userBytes, upToNul]
      rfl
    next h0 =>
      have hlt : srcva % PGSIZE < PGSIZE := Nat.mod_lt _ (by decide)
      rw [Code.bind_ok (lookup_eq h srcva), (add_mod_page srcva).2]
      generalize hn : min (PGSIZE - srcva % PGSIZE) max = n
      obtain ⟨max', rfl⟩ : ∃ k, max = n + k := ⟨max - n, by omega⟩
      by_cases ha : Accessible m root srcva
      · have hpa := h.user srcva ha
        rw [if_pos ha, if_neg hpa.ne_zero, Code.bind_ok (loadBytes_ram hpa hlt m), userBytes_add ha (by omega),
          upToNul_append]
        generalize (m.ram (PTE2PA (pteAt m root srcva))).read (srcva % PGSIZE) n = bytes
        cases bytes.findIdx? (· = 0) with
        | some j => rfl
        | none =>
          dsimp only
          rw [copyinstrLoop_eq h (by omega), Nat.add_sub_cancel_left]
          by_cases hk : max' = 0
          · subst hk
            rw [userBytes, userBytes]
          · rw [next_piece ha.1 (by rw [hn]; omega), hn]
      · obtain ⟨k, hk⟩ : ∃ k, n + max' = k + 1 := ⟨n + max' - 1, by omega⟩
        rw [if_neg ha, if_pos rfl, hk, userBytes, if_neg ha]
        simp [upToNul]
        rfl

/-- The first `k` bytes at `va` are a string: they can be read and are not NUL, and the next byte is. -/
def IsString (m : Mem) (root va k : Nat) : Prop :=
  (∀ i < k, Accessible m root (va + i) ∧ userByte m root (va + i) ≠ 0) ∧
    Accessible m root (va + k) ∧ userByte m root (va + k) = 0

/-- The first NUL of the bytes that can be read ends a string. -/
theorem findIdx?_userBytes {max k : Nat} :
    (userBytes m root va max).findIdx? (· = 0) = some k ↔ k < max ∧ IsString m root va k := by
  have hget (i : Nat) (hi : i < (userBytes m root va max).length) :=
    (getElem?_userBytes m root va max i _).mp (List.getElem?_eq_getElem hi)
  rw [List.findIdx?_eq_some_iff_getElem]
  constructor
  · rintro ⟨hk, hnul, hbefore⟩
    obtain ⟨hmax, hacc, hbyte⟩ := hget k hk
    refine ⟨hmax, fun i hi => ⟨hacc i hi.le, fun h0 => hbefore i hi ?_⟩, hacc k le_rfl, by simpa [hbyte] using hnul⟩
    rw [← (hget i (hi.trans hk)).2.2, h0]
    rfl
  · rintro ⟨hmax, hstr, hacc, hnul⟩
    have hall (j : Nat) (hj : j ≤ k) : Accessible m root (va + j) := by
      obtain hj | rfl := Nat.lt_or_eq_of_le hj
      · exact (hstr j hj).1
      · exact hacc
    obtain ⟨hk, hbyte⟩ := List.getElem?_eq_some_iff.mp
      ((getElem?_userBytes m root va max k 0).mpr ⟨hmax, hall, hnul⟩)
    refine ⟨hk, by simp [hbyte], fun j hj h0 => (hstr j hj).2 ?_⟩
    rw [(hget j (hj.trans hk)).2.2]
    simpa using h0

theorem take_userBytes : ∀ {va k len : Nat}, k ≤ len → (userBytes m root va len).take k = userBytes m root va k
  | va, 0, len, _ => by rw [List.take_zero, userBytes]
  | va, k + 1, len + 1, h => by
    rw [userBytes, userBytes]
    split
    · rw [List.take_succ_cons, take_userBytes (by omega)]
    · exact List.take_nil

theorem userBytes_eq_map {len : Nat} (h : ∀ i < len, Accessible m root (va + i)) :
    userBytes m root va len = (List.range len).map fun i => userByte m root (va + i) := by
  refine List.ext_getElem (by simpa using (length_userBytes m root va len).mpr h) fun i hi hi' => ?_
  have := (getElem?_userBytes m root va len i _).mp (List.getElem?_eq_getElem hi)
  simp [this.2.2]

/-- **copyin and copyinstr read as byte after byte would.** For any table, address and length: copyin
returns 0 exactly if every byte of the range is in a valid user page below MAXVA, and then has stored
these bytes; copyinstr returns 0 exactly if a string shorter than `max` starts there, and then has
stored it with its NUL. Either returns, -1 if not 0, leaves memory alone and stores no more than it was
asked for. -/
theorem copyin_copyinstr_bytewise (h : TableAt m root) (srcva len max : Nat) :
    (∃ r dst, copyin root srcva len m = .ok ((r, dst), m) ∧ (r = 0 ∨ r = -1) ∧
      (r = 0 ↔ ∀ i < len, Accessible m root (srcva + i)) ∧
      (r = 0 → dst = (List.range len).map fun i => userByte m root (srcva + i)) ∧ dst.length ≤ len) ∧
    (∃ r dst, copyinstr root srcva max m = .ok ((r, dst), m) ∧ (r = 0 ∨ r = -1) ∧
      (r = 0 ↔ ∃ k < max, IsString m root srcva k) ∧
      (∀ k < max, IsString m root srcva k → dst = ((List.range k).map fun i => userByte m root (srcva + i)) ++ [0]) ∧
      dst.length ≤ max) := by
  have hle (len : Nat) := length_userBytes_le m root srcva len
  constructor
  · refine ⟨_, _, copyinLoop_eq h le_rfl, ?_, ?_, fun hr => ?_, hle len⟩
    · split <;> simp
    · rw [← length_userBytes]
      split <;> simp_all
    · refine userBytes_eq_map ((length_userBytes m root srcva len).mp ?_)
      by_contra hne
      simp [hne] at hr
  · have hrun : copyinstr root srcva max m = .ok (upToNul [] (userBytes m root srcva max), m) :=
      copyinstrLoop_eq h le_rfl
    cases hf : (userBytes m root srcva max).findIdx? (· = 0) with
    | none =>
      have hno (k : Nat) (hk : k < max) : ¬ IsString m root srcva k := fun hs => by
        rw [findIdx?_userBytes.mpr ⟨hk, hs⟩] at hf
        cases hf
      simp only [upToNul, hf] at hrun
      exact ⟨_, _, hrun, .inr rfl, ⟨fun h0 => absurd h0 (by decide), fun ⟨k, hk, hs⟩ => absurd hs (hno k hk)⟩,
        fun k hk hs => absurd hs (hno k hk), hle max⟩
    | some k =>
      obtain ⟨hk, hs⟩ := findIdx?_userBytes.mp hf
      have huniq (j : Nat) (hj : j < max) (hs' : IsString m root srcva j) : j = k :=
        Option.some.inj ((findIdx?_userBytes.mpr ⟨hj, hs'⟩).symm.trans hf)
      simp only [upToNul, hf, take_userBytes hk.le, userBytes_eq_map fun i hi => (hs.1 i hi).1] at hrun
      refine ⟨_, _, hrun, .inl rfl, ⟨fun _ => ⟨k, hk, hs⟩, fun _ => rfl⟩, fun j hj hs' => ?_, ?_⟩
      · rw [huniq j hj hs']
        rfl
      · simpa using hk

/-- The second process of the demo may write its first page. -/
def demoChild (s : Sys) : Bool :=
  (s.proc ⟨1, one_lt_NPROC⟩).state = .RUNNABLE ∧ Writable s.mem (s.proc ⟨1, one_lt_NPROC⟩).pagetable 0

theorem demo_child : ∃ s, Sys.demo = some s ∧ demoChild s = true ∧
    UserTable s.mem (s.proc ⟨1, by decide⟩).pagetable := by
  have hany : Sys.demo.any demoChild = true := by decide +kernel
  obtain ⟨s, hs, hd⟩ := (Option.any_eq_true _ _).mp hany
  refine ⟨s, hs, hd, (Sys.inv_of_reach (Sys.demo_reach hs)).userTable ?_⟩
  rw [(of_decide_eq_true hd).1]
  decide

theorem copyin_copyinstr_bytewise_demo : ∃ s, Sys.demo = some s ∧
    ∃ dst, copyin (s.proc ⟨1, by decide⟩).pagetable 0 100 s.mem = .ok ((0, dst), s.mem) := by
  obtain ⟨s, hs, hd, hu⟩ := demo_child
  obtain ⟨⟨r, dst, hrun, -, hr, -⟩, -⟩ := copyin_copyinstr_bytewise hu.toTableAt 0 100 0
  have hfirst := (of_decide_eq_true hd).2.1
  obtain rfl : r = 0 := hr.mpr fun i hi => by
    refine (accessible_page s.mem (s.proc ⟨1, by decide⟩).pagetable ?_).2.mpr hfirst
    rw [show PGSIZE = 4096 from rfl]
    omega
  exact ⟨s, hs, dst, hrun⟩

end Xv6
