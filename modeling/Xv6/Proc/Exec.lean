/-
exec.c and the argument fetching of sys_exec: a program image is built in a fresh
address space from a file that may hold any bytes, with the argument strings pushed on
its stack. Whatever fails on the way, what was built is freed again: `execImage_spec`
leaves either nothing or one well-shaped address space, and no panic of vm.c or exec.c
is reached.
-/
import Xv6.Vm.UserCopy

namespace Xv6

open Lib Lib.Own

def MAXARG : Nat := 32
def MAXPATH : Nat := 128

/-- A file as exec reads it: `readi off n` may return any bytes, and fewer than `n`. -/
structure Inode where
  readi : Nat → Nat → List UInt8
  readi_le : ∀ off n, (readi off n).length ≤ n

/-! ## elf.h -/

def ELF_MAGIC : Nat := 0x464C457F
def ELF_PROG_LOAD : Nat := 1

/-- The `n`-byte integer at `off` of a struct read from a file. -/
def structField (bytes : List UInt8) (off n : Nat) : Nat := LittleEndian.get (fun i => bytes.getD i 0) off n

structure Elfhdr where
  magic : Nat
  entry : Nat
  phoff : Nat
  phnum : Nat

def Elfhdr.size : Nat := 64

def Elfhdr.ofBytes (b : List UInt8) : Elfhdr where
  magic := structField b 0 4
  entry := structField b 24 8
  phoff := structField b 32 8
  phnum := structField b 56 2

structure Proghdr where
  type : Nat
  flags : Nat
  off : Nat
  vaddr : Nat
  filesz : Nat
  memsz : Nat

def Proghdr.size : Nat := 56

def Proghdr.ofBytes (b : List UInt8) : Proghdr where
  type := structField b 0 4
  flags := structField b 4 4
  off := structField b 8 8
  vaddr := structField b 16 8
  filesz := structField b 32 8
  memsz := structField b 40 8

namespace Mem

/-! ## exec.c -/

def flags2perm (flags : Nat) : Nat :=
  (if Flag flags 0x1 then PTE_X else 0) ||| (if Flag flags 0x2 then PTE_W else 0)

/-- A segment has fewer pages than a uint counts, so the count does not run out. -/
def loadsegLoop (pagetable va : Nat) (ip : Inode) (offset sz : Nat) : Nat → Nat → Code Mem Int
  | 0, _ => Code.panic "loadseg: address should exist"
  | fuel + 1, i => do
    if i < sz then
      let pa ← walkaddr pagetable (u64 (va + i))
      if pa = 0 then Code.panic "loadseg: address should exist"
      else
        let n := min (sz - i) PGSIZE
        storeBytes pa (ip.readi (u32 (offset + i)) n)
        if (ip.readi (u32 (offset + i)) n).length ≠ n then return -1
        loadsegLoop pagetable va ip offset sz fuel (u32 (i + PGSIZE))
    else return 0

def loadseg (pagetable va : Nat) (ip : Inode) (offset sz : Nat) : Code Mem Int :=
  loadsegLoop pagetable va ip offset sz (2 ^ 20 + 1) 0

/-- The loop over the program headers: whether it got through, and the size reached. -/
def execLoad (pagetable : Nat) (ip : Inode) : Nat → Nat → Nat → Code Mem (Bool × Nat)
  | 0, _, sz => return (true, sz)
  | k + 1, off, sz => do
    let b := ip.readi off Proghdr.size
    if b.length ≠ Proghdr.size then return (false, sz)
    let ph := Proghdr.ofBytes b
    if ph.type ≠ ELF_PROG_LOAD then execLoad pagetable ip k (u32 (off + Proghdr.size)) sz
    else if ph.memsz < ph.filesz then return (false, sz)
    else if u64 (ph.vaddr + ph.memsz) < ph.vaddr then return (false, sz)
    else if ph.vaddr % PGSIZE ≠ 0 then return (false, sz)
    else
      let sz1 ← uvmalloc pagetable sz (u64 (ph.vaddr + ph.memsz)) (flags2perm ph.flags)
      if sz1 = 0 then return (false, sz)
      let r ← loadseg pagetable ph.vaddr ip (u32 ph.off) (u32 ph.filesz)
      if r < 0 then return (false, sz1)
      execLoad pagetable ip k (u32 (off + Proghdr.size)) sz1

/-- The NUL-terminated string at the start of the page at `a`. -/
def loadStr (a : Nat) : Code Mem (List UInt8) := readPage a fun c => (c.read 0 PGSIZE).takeWhile (· ≠ 0)

/-- `sp -= n; sp -= sp % 16` -/
def pushSp (sp n : Nat) : Nat :=
  let sp := u64 (sp + 2 ^ 64 - n)
  sp - sp % 16

/-- The loop over argv: the stack pointer and the strings' addresses, or a failure. -/
def pushArgs (pagetable stackbase : Nat) : List Nat → Nat → List Nat → Code Mem (Option (Nat × List Nat))
  | [], sp, ustack => return some (sp, ustack)
  | a :: argv, sp, ustack => do
    if ustack.length ≥ MAXARG then return none
    let str ← loadStr a
    let sp := pushSp sp (str.length + 1)
    if sp < stackbase then return none
    let r ← copyout pagetable sp (str ++ [0])
    if r < 0 then return none
    pushArgs pagetable stackbase argv sp (ustack ++ [sp])

/-- The bytes of an array of uint64. -/
def wordBytes (ws : List Nat) : List UInt8 :=
  ws.flatMap fun w => (List.range 8).map fun i => UInt8.ofNat (w / 256 ^ i)

/-- What exec commits to. -/
structure Image where
  pagetable : Nat
  sz : Nat
  sp : Nat
  argc : Nat
  entry : Nat

/-- The label bad, once there is a page table. -/
def execBad (pagetable sz : Nat) : Code Mem (Option Image) := do
  procFreepagetable pagetable sz
  return none

/-- exec after the segments are loaded: the stack and the arguments. -/
def execStack (pagetable sz entry : Nat) (argv : List Nat) : Code Mem (Option Image) := do
  let sz := PGROUNDUP sz
  let sz1 ← uvmalloc pagetable sz (u64 (sz + 2 * PGSIZE)) PTE_W
  if sz1 = 0 then execBad pagetable sz
  else
    let sz := sz1
    uvmclear pagetable (u64 (sz + 2 ^ 64 - 2 * PGSIZE))
    let stackbase := u64 (sz + 2 ^ 64 - PGSIZE)
    match ← pushArgs pagetable stackbase argv sz [] with
    | none => execBad pagetable sz
    | some (sp, ustack) =>
      let sp := pushSp sp ((ustack.length + 1) * 8)
      if sp < stackbase then execBad pagetable sz
      else
        let r ← copyout pagetable sp (wordBytes (ustack ++ [0]))
        if r < 0 then execBad pagetable sz
        else return some { pagetable, sz, sp, argc := ustack.length, entry }

/-- exec from the ELF header to the point of commit. -/
def execImage (ip : Inode) (trapframe : Nat) (argv : List Nat) : Code Mem (Option Image) := do
  let b := ip.readi 0 Elfhdr.size
  if b.length ≠ Elfhdr.size then return none
  let elf := Elfhdr.ofBytes b
  if elf.magic ≠ ELF_MAGIC then return none
  let pagetable ← procPagetable trapframe
  if pagetable = 0 then return none
  let (ok, sz) ← execLoad pagetable ip elf.phnum (u32 elf.phoff) 0
  if ok = false then execBad pagetable sz
  else execStack pagetable sz elf.entry argv

/-! ## sys_exec's arguments -/

/-- fetchaddr: the word at `addr` of a process of size `sz`. -/
def fetchaddr (pagetable sz addr : Nat) : Code Mem (Option Nat) := do
  if addr ≥ sz ∨ u64 (addr + 8) > sz then return none
  let (r, bytes) ← copyin pagetable addr 8
  if r ≠ 0 then return none
  return some (structField bytes 0 8)

/-- fetchstr into a kernel buffer. -/
def fetchstr (pagetable addr max : Nat) : Code Mem (Option (List UInt8)) := do
  let (r, bytes) ← copyinstr pagetable addr max
  if r < 0 then return none
  return some (bytes.takeWhile (· ≠ 0))

/-- The loop of sys_exec: a page for each argument string, and whether all were fetched. -/
def fetchArgs (pagetable sz uargv : Nat) : Nat → List Nat → Code Mem (Bool × List Nat)
  | 0, argv => return (false, argv)
  | k + 1, argv => do
    match ← fetchaddr pagetable sz (u64 (uargv + 8 * argv.length)) with
    | none => return (false, argv)
    | some uarg =>
      if uarg = 0 then return (true, argv)
      let pg ← kalloc
      if pg = 0 then return (false, argv)
      let (r, bytes) ← copyinstr pagetable uarg PGSIZE
      storeBytes pg bytes
      if r < 0 then return (false, argv ++ [pg])
      fetchArgs pagetable sz uargv k (argv ++ [pg])

/-- Free the argument pages. -/
def freeArgs : List Nat → Code Mem Unit
  | [] => return
  | pg :: argv => do
    kfree pg
    freeArgs argv

end Mem

/-! ## The image under construction -/

open Mem

theorem structField_lt (b : List UInt8) (off : Nat) : structField b off 8 < 2 ^ 64 := by
  rw [show 2 ^ 64 = 256 ^ 8 by norm_num]
  exact LittleEndian.get_lt (fun i => b.getD i 0) off 8

theorem Proghdr.ofBytes_lt (b : List UInt8) : (Proghdr.ofBytes b).vaddr < 2 ^ 64 ∧ (Proghdr.ofBytes b).memsz < 2 ^ 64 :=
  ⟨structField_lt b 16, structField_lt b 40⟩

variable {K : Layout} {root tf n sz : Nat} {leaf : Nat → Nat} {data : Nat → Page}

/-- An address space of size `sz`, whatever it maps its pages to. -/
def AnySpace (K : Layout) (root tf sz : Nat) : Own Nat Page :=
  ex fun p : (Nat → Nat) × (Nat → Page) => Space K root tf (pagesBelow sz) p.1 p.2

/-- The same while exec loads segments: no guard page yet, every page is the user's. -/
def Loading (K : Layout) (root tf sz : Nat) : Own Nat Page :=
  ex fun p : (Nat → Nat) × (Nat → Page) =>
    fact (∀ k < pagesBelow sz, Flag (p.1 k) PTE_U) + Space K root tf (pagesBelow sz) p.1 p.2

theorem Loading.le_any : Loading K root tf sz ≤ AnySpace K root tf sz :=
  ex_le fun p => fact_add_le fun _ => le_ex p le_rfl

theorem sat_space_le {s : Mem} {R : Own Nat Page} (h : (world K).Sat s (Space K root tf n leaf data + R)) : n ≤ 32768 := by
  rw [Space, add_assoc, World.sat_fact_add, add_comm (PT 2 root leaf), add_assoc] at h
  exact sat_userPages_le h.2

/-- A user page of the image under construction. -/
theorem Loading.userPa {p : (Nat → Nat) × (Nat → Page)} {va : Nat} (h : Shape K tf (pagesBelow sz) p.1)
    (hu : ∀ k < pagesBelow sz, Flag (p.1 k) PTE_U) (hva : va < sz) (hn : pagesBelow sz ≤ 32768) :
    va / PGSIZE < pagesBelow sz ∧ Xv6.userPa p.1 va = PTE2PA (p.1 (va / PGSIZE)) := by
  have hsz := le_pagesBelow_mul sz
  have hk : va / PGSIZE < pagesBelow sz := by
    rw [lt_pagesBelow]
    exact (Nat.div_mul_le_self va PGSIZE).trans_lt hva
  refine ⟨hk, if_pos ⟨?_, (h.user _ hk).1, hu _ hk⟩⟩
  rw [show PGSIZE = 4096 from rfl] at hsz
  rw [show MAXVA = 2 ^ 38 from rfl]
  omega

theorem loadsegLoop_spec {va i segsz offset fuel : Nat} {ip : Inode} (hfit : va + segsz ≤ sz)
    (hi : i < segsz + PGSIZE) (hfuel : segsz + PGSIZE ≤ fuel * PGSIZE + i) :
    Triple (world K) (Loading K root tf sz) (loadsegLoop root va ip offset segsz fuel i)
      fun _ => Loading K root tf sz := by
  have hp : PGSIZE = 4096 := rfl
  induction fuel generalizing i with
  | zero => omega
  | succ fuel ih =>
    rw [loadsegLoop]
    split
    · next hlt =>
      have hfuel' : segsz + PGSIZE ≤ fuel * PGSIZE + (i + PGSIZE) := by
        have := Nat.add_mul fuel 1 PGSIZE
        omega
      refine .ex fun p => .fact fun hu => ?_
      refine .assume (fun R s h => sat_space_le h) fun hn => .fact fun h => ?_
      have hsz := le_pagesBelow_mul sz
      rw [hp] at hsz
      have hu64 : u64 (va + i) = va + i := Nat.mod_eq_of_lt (by omega)
      have hnext : u32 (i + PGSIZE) = i + PGSIZE := Nat.mod_eq_of_lt (by rw [hp]; omega)
      obtain ⟨hk, hpa⟩ := Loading.userPa h hu (show va + i < sz by omega) hn
      rw [hu64, hnext]
      refine .seq (walkaddr_spec _) _ le_rfl fun pa => ?_
      rw [add_assoc, hpa]
      refine .fact fun he => ?_
      subst he
      refine .assume (φ := PTE2PA (p.1 ((va + i) / PGSIZE)) ∈ K.pages) (fun R s hs => ?_) fun hmem => ?_
      · rw [add_comm (PT 2 root p.1), add_assoc] at hs
        exact sat_userPages_mem hk hs
      rw [if_neg (Layout.ne_zero_of_mem hmem)]
      refine .seq (storeUser_spec _ hk) _ (add_comm _ _).le fun _ => ?_
      rw [ex_add]
      refine .ex fun data' => ?_
      have hback : userPages (pagesBelow sz) p.1 data' + PT 2 root p.1 ≤ Loading K root tf sz :=
        le_ex (p.1, data') (le_fact_add hu (le_fact_add h (add_comm _ _).le))
      split
      · exact .ret hback
      · exact (ih (Nat.add_lt_add_right hlt PGSIZE) hfuel').conseq hback fun _ => le_rfl
    · exact .ret le_rfl

theorem loadseg_spec {va offset segsz : Nat} {ip : Inode} (hfit : va + segsz ≤ sz) (hseg : segsz < 2 ^ 32) :
    Triple (world K) (Loading K root tf sz) (loadseg root va ip offset segsz) fun _ => Loading K root tf sz :=
  loadsegLoop_spec hfit (by rw [show PGSIZE = 4096 from rfl]; omega) (by rw [show PGSIZE = 4096 from rfl]; omega)

theorem flags2perm_lt (flags : Nat) : flags2perm flags < 2 ^ 10 := by
  unfold flags2perm
  split <;> split <;> decide

/-- Growing the image by a segment. -/
theorem uvmalloc_loading {newsz xperm : Nat} (hx : xperm < 2 ^ 10) :
    Triple (world K) (Loading K root tf sz) (uvmalloc root sz newsz xperm) fun r =>
      if r = 0 then Loading K root tf sz else fact (r = max sz newsz) + Loading K root tf r := by
  by_cases hlt : newsz < sz
  · rw [uvmalloc, if_pos hlt]
    refine .ret ?_
    rw [if_neg (by omega), Nat.max_eq_left (by omega), fact_of rfl, zero_add]
  · refine .ex fun p => .fact fun hu => ?_
    refine (uvmalloc_spec hx rfl (Nat.not_lt.mp hlt)).conseq le_rfl fun r => ?_
    rw [Allocated]
    split
    · exact le_ex p (le_fact_add hu le_rfl)
    · refine ex_le fun q => fact_add_le fun h => ?_
      obtain ⟨hr, hg⟩ := h
      rw [hr]
      refine le_fact_add (Nat.max_eq_right (Nat.not_lt.mp hlt)).symm (le_ex q (le_fact_add (fun k hk => ?_) le_rfl))
      by_cases hold : k < pagesBelow sz
      · rw [(hg.old k hold).1]
        exact hu k hold
      · have hflag : Flag (PTE_R ||| PTE_U ||| xperm ||| PTE_V) PTE_U := by
          simp only [flag_or]
          exact .inl (.inl (.inr (by decide)))
        rw [Flag, ← flags_and (by decide), (hg.new k (Nat.not_lt.mp hold) hk).1]
        exact hflag

theorem execLoad_spec {ip : Inode} {k off : Nat} :
    Triple (world K) (Loading K root tf sz) (execLoad root ip k off sz) fun r => Loading K root tf r.2 := by
  induction k generalizing off sz with
  | zero => exact .ret le_rfl
  | succ k ih =>
    rw [execLoad]
    split
    · exact .ret le_rfl
    have hbound := Proghdr.ofBytes_lt (ip.readi off Proghdr.size)
    generalize Proghdr.ofBytes (ip.readi off Proghdr.size) = ph at hbound
    dsimp only
    split
    · exact ih
    split
    · exact .ret le_rfl
    split
    · exact .ret le_rfl
    split
    · exact .ret le_rfl
    next hmem hwrap _ =>
    refine .bind (uvmalloc_loading (flags2perm_lt _)) fun r => ?_
    split
    · exact .ret le_rfl
    refine .fact fun hr => .bind (loadseg_spec ?_ (Nat.mod_lt _ (by decide))) fun e => ?_
    · have h1 : u32 ph.filesz ≤ ph.filesz := Nat.mod_le _ _
      have h2 : ph.vaddr + ph.memsz ≤ u64 (ph.vaddr + ph.memsz) := by
        rw [u64] at hwrap ⊢
        omega
      omega
    · split
      · exact .ret le_rfl
      · exact ih

/-! ## The stack and the arguments -/

theorem AnySpace.copyout_spec {dstva : Nat} {src : List UInt8} :
    Triple (world K) (AnySpace K root tf sz) (copyout root dstva src) fun _ => AnySpace K root tf sz :=
  .ex fun p => Xv6.copyout_spec.conseq le_rfl fun _ => ex_le fun data' => le_ex (p.1, data') le_rfl

/-- The pages of the argument strings. -/
def argPages (argv : List Nat) : Own Nat Page := (argv.map page).sum

theorem argPages_append {argv : List Nat} {pg : Nat} : argPages (argv ++ [pg]) = argPages argv + page pg := by
  simp [argPages]

theorem loadStr_spec {a : Nat} : Triple (world K) (page a) (loadStr a) fun _ => page a := by
  refine .ex fun c => .assume (fun R s h => PGROUNDDOWN_page (sat_cell_mem h)) fun hd => ?_
  exact (readPage_spec _ hd).conseq le_rfl fun _ => fact_add_le fun _ => cell_le_page

theorem pushArgs_spec {stackbase sp : Nat} {argv ustack : List Nat} :
    Triple (world K) (AnySpace K root tf sz + argPages argv) (pushArgs root stackbase argv sp ustack)
      fun _ => AnySpace K root tf sz + argPages argv := by
  induction argv generalizing sp ustack with
  | nil => exact .ret le_rfl
  | cons a argv ih =>
    have hcons : argPages (a :: argv) = page a + argPages argv := by rw [argPages, List.map_cons, List.sum_cons, argPages]
    rw [pushArgs, hcons]
    split
    · exact .ret le_rfl
    refine .seq loadStr_spec _ (add_left_comm _ _ _).le fun str => ?_
    have hback : page a + (AnySpace K root tf sz + argPages argv) ≤ AnySpace K root tf sz + (page a + argPages argv) :=
      (add_left_comm _ _ _).le
    dsimp only
    split
    · exact .ret hback
    refine .seq AnySpace.copyout_spec _ hback fun r => ?_
    split
    · exact .ret le_rfl
    · exact (ih.frame (page a)).conseq (le_of_eq (by abel)) fun _ => le_of_eq (by abel)

theorem execBad_spec : Triple (world K) (AnySpace K root tf sz) (execBad root sz) fun r => fact (r = none) :=
  .ex fun _ => .bind (procFreepagetable_spec rfl) fun _ => .ret (fact_of rfl).symm.le

/-- What exec leaves of the image: nothing, or an address space of the image's size. -/
def ImageSpace (K : Layout) (tf : Nat) : Option Image → Own Nat Page
  | none => 0
  | some img => AnySpace K img.pagetable tf img.sz

theorem execBad_image {argv : List Nat} :
    Triple (world K) (AnySpace K root tf sz + argPages argv) (execBad root sz)
      fun r => ImageSpace K tf r + argPages argv :=
  (execBad_spec.frame _).conseq le_rfl fun r => by
    refine fact_add_le fun hr => ?_
    rw [hr, ImageSpace, zero_add]

/-- From the loaded segments to the finished image, or back to nothing. -/
theorem execStack_spec {entry : Nat} {argv : List Nat} :
    Triple (world K) (AnySpace K root tf sz + argPages argv) (execStack root sz entry argv)
      fun r => ImageSpace K tf r + argPages argv := by
  rw [AnySpace, ex_add]
  refine .ex fun p => ?_
  refine .assume (fun R s h => sat_space_le (add_assoc (Space K root tf _ p.1 p.2) _ R ▸ h)) fun hn => ?_
  have hp : PGSIZE = 4096 := rfl
  have hup : PGROUNDUP sz = pagesBelow sz * PGSIZE := PGROUNDUP_small (hn.trans (by decide))
  have hnew : u64 (PGROUNDUP sz + 2 * PGSIZE) = (pagesBelow sz + 2) * PGSIZE := by
    rw [u64, hup, ← Nat.add_mul]
    exact Nat.mod_eq_of_lt (by rw [hp]; omega)
  rw [execStack]
  dsimp only
  rw [hnew, hup]
  refine .seq (uvmalloc_spec (by decide) (pagesBelow_mul _).symm (Nat.mul_le_mul_right _ (Nat.le_add_right _ 2))) _ le_rfl
    fun r => ?_
  rw [Allocated, pagesBelow_mul]
  split
  · refine execBad_image.conseq (add_le_add_left (le_ex p ?_) _) fun _ => le_rfl
    rw [pagesBelow_mul]
  · rw [ex_add]
    refine .ex fun q => ?_
    rw [add_assoc]
    refine .fact fun h => ?_
    obtain ⟨rfl, hg⟩ := h
    have hguard : u64 ((pagesBelow sz + 2) * PGSIZE + 2 ^ 64 - 2 * PGSIZE) = pagesBelow sz * PGSIZE := by
      rw [u64, hp]
      omega
    rw [hguard]
    refine .seq (uvmclear_spec (Nat.lt_add_of_pos_right (by decide))) _ le_rfl fun _ => ?_
    have hany : Space K root tf (pagesBelow sz + 2)
        (Function.update q.1 (pagesBelow sz) (q.1 (pagesBelow sz) &&& (2 ^ 64 - 1 - PTE_U))) q.2 ≤
        AnySpace K root tf ((pagesBelow sz + 2) * PGSIZE) := by
      refine le_ex (Function.update q.1 (pagesBelow sz) (q.1 (pagesBelow sz) &&& (2 ^ 64 - 1 - PTE_U)), q.2) ?_
      rw [pagesBelow_mul]
    refine .seq pushArgs_spec 0 ((add_le_add_left hany _).trans (add_zero _).symm.le) fun pushed => ?_
    rw [add_zero]
    split
    · exact execBad_image
    · split
      · exact execBad_image
      refine .seq AnySpace.copyout_spec _ le_rfl fun r => ?_
      split
      · exact execBad_image
      · exact .ret le_rfl

theorem execImage_spec {ip : Inode} {argv : List Nat} (htf : tf ∈ K.pages) :
    Triple (world K) (argPages argv) (execImage ip tf argv) fun r => ImageSpace K tf r + argPages argv := by
  have hnone : argPages argv ≤ ImageSpace K tf none + argPages argv := (zero_add _).symm.le
  rw [execImage]
  dsimp only
  split
  · exact .ret hnone
  split
  · exact .ret hnone
  refine .seq (procPagetable_spec htf) _ (zero_add _).symm.le fun root => ?_
  split
  · exact .ret le_rfl
  rw [ex_add]
  refine .ex fun leaf => ?_
  have hload : Space K root tf 0 leaf (fun _ => Buffer.fill 0) ≤ Loading K root tf 0 :=
    le_ex (leaf, fun _ => Buffer.fill 0) (le_fact_add (fun k hk => absurd hk (Nat.not_lt_zero k)) le_rfl)
  refine .seq execLoad_spec _ (add_le_add_left hload _) fun r => ?_
  split
  · exact execBad_image.conseq (add_le_add_left Loading.le_any _) fun _ => le_rfl
  · exact execStack_spec.conseq (add_le_add_left Loading.le_any _) fun _ => le_rfl

/-! ## Fetching the arguments -/

theorem AnySpace.copyin_spec {srcva len : Nat} :
    Triple (world K) (AnySpace K root tf sz) (copyin root srcva len) fun _ => AnySpace K root tf sz :=
  .ex fun p => Xv6.copyin_spec.conseq le_rfl fun _ => le_ex p le_rfl

theorem AnySpace.copyinstr_spec {srcva max : Nat} :
    Triple (world K) (AnySpace K root tf sz) (copyinstr root srcva max) fun _ => AnySpace K root tf sz :=
  .ex fun p => Xv6.copyinstr_spec.conseq le_rfl fun _ => le_ex p le_rfl

theorem fetchaddr_spec {addr size : Nat} :
    Triple (world K) (AnySpace K root tf sz) (fetchaddr root size addr) fun _ => AnySpace K root tf sz := by
  rw [fetchaddr]
  split
  · exact .ret le_rfl
  · refine .bind AnySpace.copyin_spec fun r => ?_
    split
    split
    · exact .ret le_rfl
    · exact .ret le_rfl

theorem fetchstr_spec {addr max : Nat} :
    Triple (world K) (AnySpace K root tf sz) (fetchstr root addr max) fun _ => AnySpace K root tf sz := by
  refine .bind AnySpace.copyinstr_spec fun r => ?_
  split
  split
  · exact .ret le_rfl
  · exact .ret le_rfl

/-- Every page fetchArgs allocates is in the list it returns. -/
theorem fetchArgs_spec {size uargv k : Nat} {argv : List Nat} :
    Triple (world K) (AnySpace K root tf sz + argPages argv) (fetchArgs root size uargv k argv)
      fun r => AnySpace K root tf sz + argPages r.2 := by
  induction k generalizing argv with
  | zero => exact .ret le_rfl
  | succ k ih =>
    rw [fetchArgs]
    refine .seq fetchaddr_spec _ le_rfl fun r => ?_
    split
    · exact .ret le_rfl
    split
    · exact .ret le_rfl
    refine .seq kalloc_spec _ (zero_add _).symm.le fun pg => ?_
    split
    · exact .ret (zero_add _).le
    refine .seq AnySpace.copyinstr_spec (cell pg (Buffer.fill 5) + argPages argv) (add_left_comm _ _ _).le fun r => ?_
    have hback : ∀ c, cell pg c + (AnySpace K root tf sz + argPages argv) ≤
        AnySpace K root tf sz + argPages (argv ++ [pg]) := fun c => by
      rw [argPages_append, add_left_comm, add_comm (cell pg c)]
      exact add_le_add_right (add_le_add_right cell_le_page _) _
    refine .assume (φ := pg ∈ K.pages) (fun R s h => ?_) fun hpg => ?_
    · rw [add_left_comm, add_assoc] at h
      exact sat_cell_mem h
    dsimp only
    refine .seq (modifyPage_spec _ (PGROUNDDOWN_page hpg)) _ (add_left_comm _ _ _).le fun _ => ?_
    split
    · exact .ret (hback _)
    · exact ih.conseq (hback _) fun _ => le_rfl

theorem freeArgs_spec {argv : List Nat} : Triple (world K) (argPages argv) (freeArgs argv) fun _ => 0 := by
  induction argv with
  | nil => exact .ret le_rfl
  | cons pg argv ih =>
    rw [argPages, List.map_cons, List.sum_cons, freeArgs]
    refine .seq kfree_spec _ le_rfl fun _ => ?_
    rw [zero_add]
    exact ih

end Xv6
