/-
Where copyout writes. It looks addresses up with walkaddr, which asks for PTE_V and PTE_U
but not for PTE_W; so it stores into every page of its range that the user can read, up to
the first it cannot, and respects the pages' permissions exactly if all of those are
writable (`copyout_respects_iff`). A read-only page is written (`copyout_text`).
-/
import Xv6.Proc.Access
import Xv6.Vm.PageMap

namespace Xv6

open Lib Lib.Own Mem

variable {m m₁ m' : Mem} {root va dstva : Nat} {src bs bs' : List UInt8}

/-- The page and the offset at which the byte at `va` is. -/
def place (m : Mem) (root va : Nat) : Nat × Nat := (PTE2PA (pteAt m root va), va % PGSIZE)

/-! ## Tables that stay -/

theorem leafAt_update {ram : Nat → Page} {pg : Nat} {c : Page} : ∀ {l t n : Nat}, pg ∉ walkTables ram l t n →
    walkTables (Function.update ram pg c) l t n = walkTables ram l t n ∧
      leafAt (Function.update ram pg c) l t n = leafAt ram l t n
  | 0, t, n, h => by
    have ht : t ≠ pg := fun h0 => h (by simp [walkTables, h0])
    simp [walkTables, leafAt, entryAt, Function.update_of_ne ht]
  | l + 1, t, n, h => by
    have ht : t ≠ pg := fun h0 => h (by simp [walkTables, h0])
    have hentry (i : Nat) : entryAt (Function.update ram pg c) t i = entryAt ram t i := by
      rw [entryAt, Function.update_of_ne ht, entryAt]
    rw [walkTables, List.mem_cons, not_or] at h
    rw [walkTables, walkTables, leafAt, leafAt, hentry]
    dsimp only at h ⊢
    split
    next hv =>
      rw [if_pos hv] at h
      obtain ⟨h₁, h₂⟩ := leafAt_update h.2 (c := c)
      rw [h₁, h₂]
      exact ⟨rfl, rfl⟩
    next => exact ⟨rfl, rfl⟩

/-- Both memories have the same table. -/
structure SameTable (m m' : Mem) (root : Nat) : Prop where
  tables : ∀ va < MAXVA, walkTables m'.ram 2 root (va / PGSIZE) = walkTables m.ram 2 root (va / PGSIZE)
  entries : ∀ va < MAXVA, pteAt m' root va = pteAt m root va

namespace SameTable

theorem trans (h : SameTable m m₁ root) (h' : SameTable m₁ m' root) : SameTable m m' root :=
  ⟨fun va hva => (h'.tables va hva).trans (h.tables va hva), fun va hva => (h'.entries va hva).trans (h.entries va hva)⟩

theorem accessible (h : SameTable m m' root) (va : Nat) : Accessible m' root va ↔ Accessible m root va :=
  and_congr_right fun hva => by rw [h.entries va hva]

theorem place_eq (h : SameTable m m' root) (ha : Accessible m root va) : place m' root va = place m root va := by
  rw [place, h.entries va ha.1, place]

theorem userTable (h : SameTable m m' root) (hu : UserTable m root) : UserTable m' root := by
  have hpte {va : Nat} (ha : Accessible m' root va) : Accessible m root va ∧ pteAt m' root va = pteAt m root va :=
    ⟨(h.accessible va).mp ha, h.entries va ha.1⟩
  constructor
  · constructor
    · exact fun va hva t ht => hu.tables va hva t (h.tables va hva ▸ ht)
    · intro va ha
      rw [(hpte ha).2]
      exact hu.user va (hpte ha).1
  · intro va va' ha ha'
    rw [(hpte ha).2, (hpte ha').2]
    exact hu.distinct va va' (hpte ha).1 (hpte ha').1
  · intro va va' ha hva'
    rw [(hpte ha).2, h.tables va' hva']
    exact hu.apart va va' (hpte ha).1 hva'

end SameTable

/-! ## How far a copy gets -/

/-- The number of bytes from `va` on before the first that is not accessible, at most `len`. -/
def reach (m : Mem) (root va : Nat) : Nat → Nat
  | 0 => 0
  | len + 1 => if Accessible m root va then reach m root (va + 1) len + 1 else 0

theorem length_userBytes_eq (m : Mem) (root : Nat) : ∀ va len, (userBytes m root va len).length = reach m root va len
  | _, 0 => rfl
  | va, len + 1 => by
    rw [userBytes, reach]
    split
    · rw [List.length_cons, length_userBytes_eq]
    · rfl

theorem reach_le (m : Mem) (root va len : Nat) : reach m root va len ≤ len := by
  rw [← length_userBytes_eq]
  exact length_userBytes_le m root va len

theorem reach_eq_iff {len : Nat} : reach m root va len = len ↔ ∀ i < len, Accessible m root (va + i) := by
  rw [← length_userBytes_eq, length_userBytes]

theorem lt_reach {len i : Nat} : i < reach m root va len ↔ i < len ∧ ∀ j ≤ i, Accessible m root (va + j) := by
  rw [← length_userBytes_eq]
  constructor
  · intro h
    obtain ⟨h₁, h₂, -⟩ := (getElem?_userBytes m root va len i _).mp (List.getElem?_eq_getElem h)
    exact ⟨h₁, h₂⟩
  · intro h
    exact (List.getElem?_eq_some_iff.mp ((getElem?_userBytes m root va len i _).mpr ⟨h.1, h.2, rfl⟩)).1

theorem SameTable.reach (h : SameTable m m' root) : ∀ va len, Xv6.reach m' root va len = Xv6.reach m root va len
  | _, 0 => rfl
  | va, len + 1 => by
    rw [Xv6.reach, Xv6.reach, h.reach (va + 1) len]
    simp only [h.accessible]

theorem reach_add {n k : Nat} (ha : Accessible m root va) (hn : va % PGSIZE + n ≤ PGSIZE) :
    reach m root va (n + k) = n + reach m root (va + n) k := by
  rw [← length_userBytes_eq, userBytes_add ha hn, List.length_append, length_read, length_userBytes_eq]

/-! ## What a copy stores -/

/-- `m'` is `m` with the bytes `bs` stored at the user addresses from `va` on, and nothing else. -/
structure Stored (m : Mem) (root va : Nat) (bs : List UInt8) (m' : Mem) : Prop where
  table : SameTable m m' root
  stored : ∀ i (h : i < bs.length), (m'.ram (place m root (va + i)).1).bytes (place m root (va + i)).2 = bs[i]
  others : ∀ pg k, (∀ i < bs.length, place m root (va + i) ≠ (pg, k)) → (m'.ram pg).bytes k = (m.ram pg).bytes k

theorem Stored.nil (m : Mem) (root va : Nat) : Stored m root va [] m :=
  ⟨⟨fun _ _ => rfl, fun _ _ => rfl⟩, fun _ h => absurd h (Nat.not_lt_zero _), fun _ _ _ => rfl⟩

theorem UserTable.place_inj (hu : UserTable m root) {va va' : Nat} (ha : Accessible m root va)
    (ha' : Accessible m root va') (he : place m root va = place m root va') : va = va' := by
  obtain ⟨hpage, hoff⟩ := Prod.mk.inj he
  have hdiv := hu.distinct va va' ha ha' hpage
  rw [← Nat.div_add_mod va PGSIZE, ← Nat.div_add_mod va' PGSIZE, hdiv, hoff]

theorem Stored.append (h : Stored m root va bs m₁) (hu : UserTable m root) (h' : Stored m₁ root (va + bs.length) bs' m')
    (hacc : ∀ i < (bs ++ bs').length, Accessible m root (va + i)) : Stored m root va (bs ++ bs') m' := by
  have hplace (i : Nat) (hi : i < bs'.length) :
      place m₁ root (va + bs.length + i) = place m root (va + (bs.length + i)) := by
    rw [Nat.add_assoc]
    exact h.table.place_eq (hacc _ (by simpa using hi))
  refine ⟨h.table.trans h'.table, fun i hi => ?_, fun pg k hpk => ?_⟩
  · by_cases hlt : i < bs.length
    · rw [h'.others _ _ fun j hj he => ?_, h.stored i hlt, List.getElem_append_left hlt]
      rw [hplace j hj] at he
      have := hu.place_inj (hacc _ (by simpa using hj)) (hacc i hi) he
      omega
    · obtain ⟨j, rfl⟩ : ∃ j, i = bs.length + j := ⟨i - bs.length, by omega⟩
      have hj : j < bs'.length := by simpa using hi
      have := h'.stored j hj
      rw [hplace j hj] at this
      rw [this]
      simp
  · rw [h'.others pg k fun j hj he => ?_, h.others pg k fun i hi => hpk i (by simp; omega)]
    rw [hplace j hj] at he
    exact hpk (bs.length + j) (by simpa using hj) he

theorem storeBytes_ram {pg off : Nat} (h : InRam pg) (hoff : off < PGSIZE) (m : Mem) (bs : List UInt8) :
    storeBytes (pg + off) bs m = .ok ((), { m with ram := Function.update m.ram pg ((m.ram pg).write off bs) }) := by
  rw [storeBytes, modifyPage, Code.bind_ok (access_ram h hoff m), (page_of_add h hoff).1, (page_of_add h hoff).2]
  rfl

/-- One page piece. -/
theorem Stored.piece (bs : List UInt8) (hu : UserTable m root) (ha : Accessible m root va) (hn : va % PGSIZE + bs.length ≤ PGSIZE) :
    Stored m root va bs { m with
      ram := Function.update m.ram (PTE2PA (pteAt m root va))
        ((m.ram (PTE2PA (pteAt m root va))).write (va % PGSIZE) bs) } := by
  have hplace (i : Nat) (hi : i < bs.length) :
      place m root (va + i) = (PTE2PA (pteAt m root va), va % PGSIZE + i) := by
    rw [place, (accessible_page m root (by omega)).1, Nat.add_mod, Nat.mod_eq_of_lt (b := PGSIZE) (a := i) (by omega),
      Nat.mod_eq_of_lt (by omega)]
  refine ⟨⟨fun va' hva' => ?_, fun va' hva' => ?_⟩, fun i hi => ?_, fun pg k hpk => ?_⟩
  · exact (leafAt_update (hu.apart va va' ha hva')).1
  · exact (leafAt_update (hu.apart va va' ha hva')).2
  · rw [hplace i hi]
    dsimp only
    rw [Function.update_self, Buffer.bytes_write (by omega), dif_pos ⟨by omega, by omega⟩]
    congr 1
    omega
  · dsimp only
    by_cases hpg : pg = PTE2PA (pteAt m root va)
    · subst hpg
      rw [Function.update_self]
      by_cases hk : k < PGSIZE
      · rw [Buffer.bytes_write hk, dif_neg]
        rintro ⟨hle, hlt⟩
        refine hpk (k - va % PGSIZE) hlt ?_
        rw [hplace _ hlt, Nat.add_sub_cancel' hle]
      · rw [Buffer.bytes, dif_neg hk, Buffer.bytes, dif_neg hk]
    · rw [Function.update_of_ne hpg]

/-- copyout stores as much of `src` as the user could read there. -/
theorem copyoutLoop_eq : ∀ {fuel dstva : Nat} {src : List UInt8} {m : Mem}, UserTable m root → src.length ≤ fuel →
    ∃ m', copyoutLoop root fuel dstva src m =
        .ok (if reach m root dstva src.length = src.length then 0 else -1, m') ∧
      Stored m root dstva (src.take (reach m root dstva src.length)) m'
  | 0, dstva, src, m, hu, hfuel => by
    obtain rfl : src = [] := List.eq_nil_of_length_eq_zero (by omega)
    exact ⟨m, rfl, .nil m root dstva⟩
  | fuel + 1, dstva, [], m, hu, hfuel => ⟨m, rfl, .nil m root dstva⟩
  | fuel + 1, dstva, b :: src, m, hu, hfuel => by
    generalize hs : b :: src = bytes at hfuel
    have hpos : 0 < bytes.length := by simp [← hs]
    have hlt : dstva % PGSIZE < PGSIZE := Nat.mod_lt _ (by decide)
    rw [← hs, copyoutLoop, hs, Code.bind_ok (lookup_eq hu.toTableAt dstva), (add_mod_page dstva).2]
    · generalize hn : min (PGSIZE - dstva % PGSIZE) bytes.length = n
      by_cases ha : Accessible m root dstva
      · have hpa := hu.user dstva ha
        have hlen : (bytes.take n).length = n := by simp; omega
        have hpiece := Stored.piece (bytes.take n) hu ha (by omega)
        rw [if_pos ha, if_neg hpa.ne_zero, Code.bind_ok (storeBytes_ram hpa hlt m _)]
        generalize hm₁ : ({ m with ram := _ } : Mem) = m₁ at hpiece
        have hsum : n + (bytes.drop n).length = bytes.length := by simp; omega
        have hreach : reach m root dstva bytes.length = n + reach m root (dstva + n) (bytes.drop n).length := by
          rw [← hsum, reach_add ha (by omega)]
        by_cases hk : (bytes.drop n).length = 0
        · -- the last piece
          rw [List.eq_nil_of_length_eq_zero hk, hreach, hk, reach, if_pos (by omega), Nat.add_zero]
          exact ⟨m₁, by cases fuel <;> rfl, hpiece⟩
        · have hnext : u64 (PGROUNDDOWN dstva + PGSIZE) = dstva + n := by
            have hleft : 0 < bytes.length - min (PGSIZE - dstva % PGSIZE) bytes.length := by omega
            rw [next_piece ha.1 hleft, hn]
          have hfuel' : (bytes.drop n).length ≤ fuel := by omega
          obtain ⟨m', hrun, hst⟩ := copyoutLoop_eq (hpiece.table.userTable hu) hfuel'
          rw [hpiece.table.reach] at hrun hst
          refine ⟨m', ?_, ?_⟩
          · rw [hnext, hrun, hreach]
            simp only [← hsum, Nat.add_left_cancel_iff]
          · rw [hreach, List.take_add]
            refine hpiece.append hu (hlen.symm ▸ hst) fun i hi => ?_
            simp only [List.length_append, List.length_take] at hi
            exact (lt_reach.mp (show i < reach m root dstva bytes.length by omega)).2 i le_rfl
      · obtain ⟨k, hk⟩ := Nat.exists_eq_succ_of_ne_zero hpos.ne'
        rw [if_neg ha, if_pos rfl, hk, reach, if_neg ha, if_neg (by omega)]
        exact ⟨m, rfl, .nil m root dstva⟩
    · simp

theorem copyout_eq (hu : UserTable m root) (dstva : Nat) (src : List UInt8) :
    ∃ m', copyout root dstva src m = .ok (if reach m root dstva src.length = src.length then 0 else -1, m') ∧
      Stored m root dstva (src.take (reach m root dstva src.length)) m' :=
  copyoutLoop_eq hu le_rfl

/-! ## Permissions -/

/-- What copyout is to do with the range from `dstva` on: change no byte but in pages mapped there with V, U and W,
return 0 exactly if all of the range is in such pages, and then have stored `src`, for copyin to read, and nothing
else. -/
def Respects (m : Mem) (root dstva : Nat) (src : List UInt8) : Prop :=
  ∃ r m', copyout root dstva src m = .ok (r, m') ∧
    (∀ pg k, (m'.ram pg).bytes k ≠ (m.ram pg).bytes k →
      ∃ i < src.length, Writable m root (dstva + i) ∧ pg = PTE2PA (pteAt m root (dstva + i))) ∧
    (r = 0 ↔ ∀ i < src.length, Writable m root (dstva + i)) ∧
    (r = 0 → copyin root dstva src.length m' = .ok ((0, src), m') ∧
      ∀ pg k, (∀ i < src.length, place m root (dstva + i) ≠ (pg, k)) → (m'.ram pg).bytes k = (m.ram pg).bytes k)

/-- What was stored everywhere is read back. -/
theorem Stored.copyin (hu : UserTable m root) (h : Stored m root dstva src m')
    (hacc : ∀ i < src.length, Accessible m root (dstva + i)) : copyin root dstva src.length m' = .ok ((0, src), m') := by
  have hacc' (i : Nat) (hi : i < src.length) : Accessible m' root (dstva + i) := (h.table.accessible _).mpr (hacc i hi)
  have hbytes : userBytes m' root dstva src.length = src := by
    rw [userBytes_eq_map hacc']
    refine List.ext_getElem (by simp) fun i hi hi' => ?_
    rw [List.getElem_map, List.getElem_range, ← h.stored i hi', userByte, h.table.entries _ (hacc i hi').1, place]
  rw [Mem.copyin, copyinLoop_eq (h.table.userTable hu).toTableAt le_rfl, hbytes, if_pos rfl, List.nil_append]

/-- **copyout respects permissions exactly where all it can reach is writable.** For a table, an address and a length:
whatever bytes are to be stored, copyout respects the pages' permissions, if and only if each byte of the range up
to which the user could read is in a writable page. -/
theorem copyout_respects_iff (hu : UserTable m root) (dstva len : Nat) :
    (∀ src : List UInt8, src.length = len → Respects m root dstva src) ↔
      ∀ i < len, (∀ j ≤ i, Accessible m root (dstva + j)) → Flag (pteAt m root (dstva + i)) PTE_W := by
  constructor
  · intro h i hi hacc
    -- bytes unlike those that are there
    let src := (List.range len).map fun j => userByte m root (dstva + j) + 1
    obtain ⟨r, m', hrun, honly, -⟩ := h src (by simp [src])
    obtain ⟨m₁, hrun₁, hst⟩ := copyout_eq hu dstva src
    obtain ⟨rfl, rfl⟩ : r = _ ∧ m' = m₁ := by
      have := hrun.symm.trans hrun₁
      simpa using this
    have hri : i < reach m root dstva len := lt_reach.mpr ⟨hi, hacc⟩
    have hstored := hst.stored i (by simp [src]; omega)
    obtain ⟨i', hi', hw, hpg⟩ := honly _ _ (by rw [hstored]; simp [src, userByte, place])
    have hdiv := hu.distinct _ _ (hacc i le_rfl) hw.1 hpg
    rw [pteAt, hdiv]
    exact hw.2
  · rintro h src rfl
    obtain ⟨m', hrun, hst⟩ := copyout_eq hu dstva src
    have hle := reach_le m root dstva src.length
    have hwr (i : Nat) (hi : i < reach m root dstva src.length) : Writable m root (dstva + i) := by
      obtain ⟨hlt, hacc⟩ := lt_reach.mp hi
      exact ⟨hacc i le_rfl, h i hlt hacc⟩
    have hall : (∀ i < src.length, Writable m root (dstva + i)) ↔ reach m root dstva src.length = src.length :=
      ⟨fun hw => reach_eq_iff.mpr fun i hi => (hw i hi).1, fun he i hi => hwr i (he.symm ▸ hi)⟩
    refine ⟨_, m', hrun, fun pg k hne => ?_, ?_, fun hr => ?_⟩
    · by_contra hno
      refine hne (hst.others pg k fun i hi he => hno ?_)
      simp only [List.length_take] at hi
      exact ⟨i, by omega, hwr i (by omega), (Prod.mk.inj he).1.symm⟩
    · rw [hall]
      split <;> simp_all
    · have hreach : reach m root dstva src.length = src.length := by
        by_contra hne
        simp [hne] at hr
      rw [hreach, List.take_length] at hst
      exact ⟨hst.copyin hu (reach_eq_iff.mp hreach), hst.others⟩

theorem copyout_respects_iff_demo : ∃ s, Sys.demo = some s ∧ demoChild s = true ∧
    ∀ src : List UInt8, src.length = 100 → Respects s.mem (s.proc ⟨1, by decide⟩).pagetable 0 src := by
  obtain ⟨s, hs, hd, hu⟩ := demo_child
  have hw := (of_decide_eq_true hd).2
  refine ⟨s, hs, hd, (copyout_respects_iff hu 0 100).mpr fun i hi _ => ?_⟩
  have hpage : 0 % PGSIZE + i < PGSIZE := by
    rw [show PGSIZE = 4096 from rfl]
    omega
  rw [(accessible_page s.mem (s.proc ⟨1, by decide⟩).pagetable hpage).1]
  exact hw.2

/-- copyout stores into a page that is mapped for reading only. -/
theorem copyout_text : ∃ root m m', Built fourPages.layout root m ∧
    pageMap m.ram root 0x1000 = some (lastPage, PTE_R ||| PTE_U ||| PTE_V) ∧ copyout root 0x1000 [7] m = .ok (0, m') ∧
    (m.ram lastPage).bytes 0 = 0 ∧ (m'.ram lastPage).bytes 0 = 7 ∧ ¬ Respects m root 0x1000 [7] := by
  have ht : mapLast.any (fun p => decide
      (pageMap p.2.ram p.1 0x1000 = some (lastPage, PTE_R ||| PTE_U ||| PTE_V) ∧ ¬ Writable p.2 p.1 0x1000 ∧
        (p.2.ram lastPage).bytes 0 = 0) &&
      (copyout p.1 0x1000 [7] p.2).toOption.any fun r => decide (r.1 = 0 ∧ (r.2.ram lastPage).bytes 0 = 7)) = true := by
    decide +kernel
  obtain ⟨⟨root, m⟩, hp, hm⟩ := (Option.any_eq_true _ _).mp ht
  obtain ⟨hmap, hrun⟩ := Bool.and_eq_true_iff.mp hm
  obtain ⟨hmap, hnot, hzero⟩ := of_decide_eq_true hmap
  obtain ⟨⟨r, m'⟩, hok, hr⟩ := (Option.any_eq_true _ _).mp hrun
  obtain ⟨rfl, hseven⟩ := of_decide_eq_true hr
  have hcopy : copyout root 0x1000 [7] m = .ok (0, m') := by
    cases hc : copyout root 0x1000 [7] m with
    | error e => simp [hc, Except.toOption] at hok
    | ok x => simp_all [Except.toOption]
  refine ⟨root, m, m', mapLast_built hp, hmap, hcopy, hzero, hseven, ?_⟩
  rintro ⟨r, m'', hrun', -, hret, -⟩
  obtain ⟨rfl, rfl⟩ : r = 0 ∧ m'' = m' := by simpa [hcopy, eq_comm] using hrun'
  exact hnot (by simpa using hret.mp rfl 0 (by decide))

end Xv6
