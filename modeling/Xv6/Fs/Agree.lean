/-
mkfs and the kernel agree on the format: on an image mkfs made, the kernel finds every
file by its name, and reads back the bytes mkfs was given. The root directory may have a
hole in its last block then; the lookup of a file ends before it.
-/
import Xv6.Fs.Path

namespace Xv6.Fs

open Lib Mkfs

variable {files : List Input} {t : Image} {s s₁ : State} {ip : Fin NINODE} {name : List UInt8} {i k : Nat} {f : Input}

/-- Entries that are not the one looked for are passed over. -/
theorem dirlookupFrom_skip {de : List UInt8} {off : Nat} {offs rest : List Nat}
    (hskip : ∀ o ∈ offs, ∃ de, readDirent ip "dirlookup read" o s = .ok (de, s) ∧ Slots.has (key name) (slotOf de) = false)
    (hread : readDirent ip "dirlookup read" off s = .ok (de, s)) (hhas : Slots.has (key name) (slotOf de) = true) :
    dirlookupFrom ip name (offs ++ off :: rest) s = (do return some (← iget (direntInum de), off) : Code State _) s := by
  induction offs with
  | nil =>
    rw [List.nil_append, dirlookupFrom, Code.bind_ok hread, if_pos (has_slotOf.mp hhas)]
  | cons o offs ih =>
    obtain ⟨de', hde', hno⟩ := hskip o List.mem_cons_self
    rw [List.cons_append, dirlookupFrom, Code.bind_ok hde', if_neg (has_slotOf.not.mp (by simp [hno]))]
    exact ih fun o ho => hskip o (List.mem_cons_of_mem _ ho)

/-- The kernel's copy of the root's inode. -/
structure RootAt (s s₁ : State) (ip : Fin NINODE) : Prop where
  d : (s₁.itable ip).d = s.dinode 1
  block : s₁.block = s.block

/-- An entry mkfs wrote. -/
theorem Booted.root_entry (h : Booted t s) (hm : Made files t) (hfit : Mkfs.Fits files) (hr : RootAt s s₁ ip)
    (hk : k < files.length + 2) : readDirent ip "dirlookup read" (DIRENT * k) s₁ =
      .ok (((rootBytes files).drop (DIRENT * k)).take DIRENT, s₁) := by
  have hcount := hfit.count
  have hN : NINODES = 200 := rfl
  have hM : MAXFILE = 268 := rfl
  have hD : DIRENT = 16 := rfl
  have hDk : DIRENT * k = 16 * k := rfl
  have hd : (s₁.itable ip).d = Mkfs.sb.inode s.block 1 := by rw [hr.d, h.dinode]
  have hsize : (s₁.itable ip).d.size = (16 * (files.length + 2) / BSIZE + 1) * BSIZE := by
    rw [hd, h.inode (by decide), size_root hm]
  have hin : ∀ p, p < 16 * (files.length + 2) → p < blocksOf (16 * (files.length + 2)) * BSIZE := by
    intro p hp
    simp only [blocksOf, BSIZE]
    omega
  have hread : readi ip toKernel (DIRENT * k) DIRENT s₁ =
      .ok (((DIRENT : Int), (s₁.itable ip).d.segment s₁.block (DIRENT * k) DIRENT), s₁) := by
    refine readi_mapped (fun _ _ => rfl) (by omega) ?_ fun p hp hp' => ⟨?_, ?_⟩
    · rw [hsize]
      simp only [BSIZE]
      omega
    · simp only [BSIZE]
      omega
    · rw [hd, hr.block]
      exact (h.root_byte hm hfit (hin p (by omega))).1
  have hseg : (s₁.itable ip).d.segment s₁.block (DIRENT * k) DIRENT = ((rootBytes files).drop (DIRENT * k)).take DIRENT := by
    refine List.ext_getElem? fun p => ?_
    rw [Dinode.getElem?_segment, List.getElem?_take, List.getElem?_drop, hd, hr.block]
    split
    · next hp =>
      have hlt : DIRENT * k + p < (rootBytes files).length := by
        rw [length_rootBytes]
        omega
      rw [(h.root_byte hm hfit (hin _ (by omega))).2, List.getD_eq_getElem?_getD, List.getElem?_eq_getElem hlt]
      rfl
    · rfl
  unfold readDirent
  rw [Code.bind_ok hread, hseg]
  rfl

/-- The slots of the entries. -/
theorem slotOf_root (hfit : Mkfs.Fits files) (hk : k < files.length + 2) :
    (rootNames files)[k]?.map some = some (slotOf (((rootBytes files).drop (DIRENT * k)).take DIRENT)) := by
  have hcount := hfit.count
  have hslots : slots (rootBytes files ++ []) = (rootNames files).map some ++ slots [] := slots_rootBytes (by omega)
  have hlen : (rootBytes files).length / DIRENT = files.length + 2 := by
    rw [length_rootBytes]
    exact Nat.mul_div_cancel_left _ (by decide)
  rw [List.append_nil, show slots [] = [] from rfl, List.append_nil] at hslots
  rw [← List.getElem?_map, ← hslots, getElem?_slots (by rwa [hlen])]

theorem getElem?_named : ∀ (files : List Input) (i k : Nat), files[k]? = some f →
    (named i files)[k]? = some (key (shortname f.argv), i + k)
  | [], i, k, h => by cases h
  | g :: fs, i, 0, h => by
    cases h
    rfl
  | g :: fs, i, k + 1, h => by
    rw [named, List.getElem?_cons_succ, getElem?_named fs (i + 1) k h, Nat.add_right_comm, Nat.add_assoc]

/-- **The kernel finds a file's entry in the root.** -/
theorem Booted.dirlookup_root (h : Booted t s) (hm : Made files t) (hfit : Mkfs.Fits files)
    (hnames : ((rootNames files).map Prod.fst).Nodup) (hf : files[i]? = some f) (hr : RootAt s s₁ ip)
    (hname : key name = key (shortname f.argv)) :
    dirlookup ip name s₁ = (do return some (← iget (i + 2), DIRENT * (i + 2)) : Code State _) s₁ := by
  have hcount := hfit.count
  have hi : i < files.length := (List.getElem?_eq_some_iff.mp hf).1
  have hentry : (rootNames files)[i + 2]? = some (key (shortname f.argv), i + 2) := by
    rw [rootNames, List.getElem?_cons_succ, List.getElem?_cons_succ, getElem?_named files 2 i hf, Nat.add_comm]
  have hd : (s₁.itable ip).d = Mkfs.sb.inode s.block 1 := by rw [hr.d, h.dinode]
  have hoffs : ∃ rest, offsets (s₁.itable ip).d.size =
      (List.range (i + 2)).map (DIRENT * ·) ++ DIRENT * (i + 2) :: rest := by
    obtain ⟨b, hb⟩ : ∃ b, ((s₁.itable ip).d.size + DIRENT - 1) / DIRENT = (i + 2) + (b + 1) := by
      refine ⟨((s₁.itable ip).d.size + DIRENT - 1) / DIRENT - (i + 3), ?_⟩
      rw [hd, h.inode (by decide), size_root hm]
      simp only [DIRENT, BSIZE]
      omega
    rw [offsets, hb, List.range_add, @List.range_succ_eq_map b, List.map_append, List.map_cons, List.map_cons]
    exact ⟨_, rfl⟩
  obtain ⟨rest, hoffs⟩ := hoffs
  -- the entry is this file's
  have hslot : (rootNames files)[i + 2]?.map some = some (slotOf (((rootBytes files).drop (DIRENT * (i + 2))).take DIRENT)) :=
    slotOf_root hfit (by omega)
  rw [hentry, Option.map_some, Option.some.injEq] at hslot
  have hinum : direntInum (((rootBytes files).drop (DIRENT * (i + 2))).take DIRENT) = i + 2 := by
    unfold slotOf at hslot
    split at hslot
    · cases hslot
    · simp only [Option.some.injEq, Prod.mk.injEq] at hslot
      exact hslot.2.symm
  have hskip : ∀ o ∈ (List.range (i + 2)).map (DIRENT * ·), ∃ de, readDirent ip "dirlookup read" o s₁ = .ok (de, s₁) ∧
      Slots.has (key name) (slotOf de) = false := by
    intro o ho
    obtain ⟨k, hk, rfl⟩ := List.mem_map.mp ho
    rw [List.mem_range] at hk
    refine ⟨_, h.root_entry hm hfit hr (by omega), ?_⟩
    have hother : (rootNames files)[k]?.map some = some (slotOf (((rootBytes files).drop (DIRENT * k)).take DIRENT)) :=
      slotOf_root hfit (by omega)
    by_contra hhas
    rw [Bool.not_eq_false, Slots.has_iff] at hhas
    obtain ⟨v, hv⟩ := hhas
    rw [hv, Option.map_eq_some_iff] at hother
    obtain ⟨x, hx, hxe⟩ := hother
    cases hxe
    have h1 : ((rootNames files).map Prod.fst)[k]? = some (key name) := by rw [List.getElem?_map, hx]; rfl
    have h2 : ((rootNames files).map Prod.fst)[i + 2]? = some (key name) := by
      rw [List.getElem?_map, hentry, hname]
      rfl
    have := (List.getElem?_inj (List.getElem?_eq_some_iff.mp h1).1 hnames).mp (h1.trans h2.symm)
    omega
  have hhas : Slots.has (key name) (slotOf (((rootBytes files).drop (DIRENT * (i + 2))).take DIRENT)) = true := by
    rw [← hslot, Slots.has_iff, hname]
    exact ⟨_, rfl⟩
  unfold dirlookup
  rw [inode_bind, if_neg (by rw [hd, h.inode (by decide), type_root hm]; simp), hoffs,
    dirlookupFrom_skip hskip (h.root_entry hm hfit hr (by omega)) hhas, hinum]

/-- A path of one element. -/
theorem elements_single {name : List UInt8} (hs : Fs.slash ∉ name) (hne : key name ≠ []) :
    elements (Fs.slash :: name) = [key name] := by
  have htw : name.takeWhile (· ≠ 0) ≠ [] := by
    intro h
    rw [key, h] at hne
    exact hne rfl
  have hsplit : (name.takeWhile (· ≠ 0)).splitOn Fs.slash = [name.takeWhile (· ≠ 0)] :=
    List.splitOnP_eq_singleton fun c hc => by
      simp only [beq_eq_false_iff_ne, ne_eq]
      rintro rfl
      exact hs ((List.takeWhile_sublist _).subset hc)
  rw [elements, parts_slash, parts, hsplit, List.filter_cons_of_pos (by simpa using htw), List.filter_nil]
  rfl

theorem not_mem_shortname {argv : List UInt8} {c : UInt8} (h : c ∉ strip argv) : c ∉ shortname argv := by
  unfold shortname
  split
  · next d name he =>
    rw [he] at h
    split
    · exact fun hc => h (List.mem_cons_of_mem _ hc)
    · exact h
  · exact List.not_mem_nil

/-- **namei finds the file.** -/
theorem Booted.namei_file (h : Booted t s) (hm : Made files t) (hfit : Mkfs.Fits files)
    (hnames : ((rootNames files).map Prod.fst).Nodup) (hf : files[i]? = some f) (hne : key (shortname f.argv) ≠ [])
    (cwd : Fin NINODE) : ∃ ip s', namei cwd (Fs.slash :: shortname f.argv) s = .ok (some ip, s') ∧
      Lent s s' {i + 2} ∅ ∧ s'.At ip (i + 2) := by
  have hN : NINODE = 50 := rfl
  have hspare := h.spare
  have hkey : s.Keyed := fun kp lp hk => by
    rw [h.itable] at hk
    exact absurd hk (lt_irrefl 0)
  have h₀ : Lent s s 0 ∅ := .refl hkey (fun kp => by rw [h.itable]; rfl) fun kp i ha => by
    have := ha.ref
    rw [h.itable] at this
    exact absurd this (lt_irrefl 0)
  have hes := elements_single (not_mem_shortname (hfit.name f (List.mem_of_getElem? hf))) hne
  have htype : (s.dinode 1).type = T_DIR := by rw [h.dinode, h.inode (by decide), type_root hm]
  have hlink : (s.dinode 1).type ≠ 0 → (s.dinode 1).nlink = 0 → 0 < s.refs 1 := by
    intro ht hz
    rw [(h.allocated hm (by decide) ht).1] at hz
    cases hz
  -- the root, locked
  have hget := h₀.iget_spec ROOTINO
  cases hg : iget ROOTINO s with
  | error msg =>
    rw [hg] at hget
    omega
  | ok r =>
    rw [hg] at hget
    obtain ⟨hl, ha, -⟩ := hget
    obtain ⟨s₁, he₁, hl₁, hh₁, hd₁, hat₁⟩ := hl.ilock (Finset.notMem_empty r.1) ha (by rw [h.sb]; decide)
      (by rw [show ROOTINO = 1 from rfl, htype]; decide) hkey
    have ha₁ := hat₁ _ _ ha
    -- the file's name
    have hskip := skipelem_spec (Fs.slash :: shortname f.argv) (List.replicate DIRSIZ 0)
    rw [hes] at hskip
    split at hskip
    · cases hskip
    · next path' name' hsk =>
      obtain ⟨hcons, -, -⟩ := hskip
      obtain ⟨hname, hend⟩ := List.cons_eq_cons.mp hcons
      have hlook := h.dirlookup_root hm hfit hnames hf ⟨hd₁, hl₁.same.block⟩ hname.symm
      have hget₂ := hl₁.iget_spec (i + 2)
      have hle := hl₁.spare_le hkey
      rw [Multiset.card_cons, Multiset.card_zero] at hle
      cases hg₂ : iget (i + 2) s₁ with
      | error msg =>
        rw [hg₂] at hget₂
        omega
      | ok r₂ =>
        rw [hg₂] at hget₂
        obtain ⟨hl₂, ha₂, hat₂⟩ := hget₂
        rw [Multiset.cons_swap] at hl₂
        obtain ⟨s₃, he₃, hl₃, hat₃⟩ := hl₂.iunlockput (Finset.notMem_empty r.1) hkey (hat₂ _ _ ha₁) hlink
        -- and the path ends there
        have hstop : skipelem path' name' = none := by
          have hskip' := skipelem_spec path' name'
          rw [← hend] at hskip'
          split at hskip'
          · assumption
          · cases hskip'.1
        refine ⟨r₂.1, s₃, ?_, hl₃, hat₃ _ _ (.inr (Multiset.mem_cons_self _ _)) ha₂⟩
        have hx : namex cwd (Fs.slash :: shortname f.argv) false (List.replicate DIRSIZ 0) s = .ok (some (r₂.1, name'), s₃) := by
          unfold namex
          rw [if_pos (by rfl), Code.bind_ok hg]
          change namexLoop false ((shortname f.argv).length + 1 + 1) r.1 _ _ r.2 = _
          rw [namexLoop, hsk]
          dsimp only
          rw [Code.bind_ok he₁, inode_bind, hd₁, show ROOTINO = 1 from rfl, if_neg (by simp [htype]), if_neg (by simp),
            Code.bind_ok (hlook.trans (Code.bind_ok hg₂))]
          dsimp only
          rw [Code.bind_ok he₃, namexLoop, hstop]
          rfl
        unfold namei
        rw [Code.bind_ok hx]
        rfl

/-- **mkfs and the kernel agree on the format.** For files that fit, under names that are not empty and differ in the part
that counts: on the image mkfs makes of them the kernel's namei finds each, and readi reads its bytes. -/
theorem mkfs_kernel_agree (hfit : Mkfs.Fits files) (hne : ∀ f ∈ files, key (shortname f.argv) ≠ [])
    (hnames : ((rootNames files).map Prod.fst).Nodup) :
    ∃ t s, main files {} = .ok ((), t) ∧ fsinit t.sect = .ok s ∧ ∀ (i : Nat) (f : Input), files[i]? = some f → ∀ cwd,
      ∃ ip s₁ s₂, namei cwd (Fs.slash :: shortname f.argv) s = .ok (some ip, s₁) ∧ ilock ip s₁ = .ok ((), s₂) ∧
        (s₂.itable ip).d.type = T_FILE ∧ (s₂.itable ip).d.nlink = 1 ∧ (s₂.itable ip).d.size = f.bytes.length ∧
        Reads s₂ ip f.bytes := by
  obtain ⟨_, t, hmain, hm⟩ := main_made hfit
  obtain ⟨s, hinit, hb⟩ := fsinit_made hm
  refine ⟨t, s, hmain, hinit, fun i f hf cwd => ?_⟩
  have hcount := hfit.count
  have hN : NINODES = 200 := rfl
  have hlen := (List.getElem?_eq_some_iff.mp hf).1
  have hi : i + 2 < NINODES := by omega
  obtain ⟨ip, s₁, hnamei, hl, ha⟩ := hb.namei_file hm hfit hnames hf (hne f (List.mem_of_getElem? hf)) cwd
  obtain ⟨hfields, hholds⟩ := hm.file i f hf
  have hd : s.dinode (i + 2) = Mkfs.sb.inode t.sect (i + 2) := by rw [hb.dinode, hb.inode hi]
  have htype : (s.dinode (i + 2)).type = T_FILE := by rw [hd, hfields]
  have hkey : s.Keyed := fun kp lp hk => by
    rw [hb.itable] at hk
    exact absurd hk (lt_irrefl 0)
  obtain ⟨s₂, hlock, hl₂, hh, hd₂, -⟩ := hl.ilock (Finset.notMem_empty ip) ha (by rw [hb.sb]; exact hi) (by rw [htype]; decide) hkey
  refine ⟨ip, s₁, s₂, hnamei, hlock, by rw [hd₂, htype], by rw [hd₂, hd, hfields], by rw [hd₂, hd, hfields], ?_⟩
  have hsolid : Solid (s₂.itable ip).d s₂.block := by
    have hM := blocksOf_le (hfit.size f (List.mem_of_getElem? hf))
    have hsize : (s₂.itable ip).d.size = f.bytes.length := by rw [hd₂, hd, hfields]
    refine ⟨by rwa [hsize], fun k hk => ?_⟩
    rw [hsize] at hk
    have hp : k * BSIZE < blocksOf f.bytes.length * BSIZE := Nat.mul_lt_mul_of_pos_right hk (by decide)
    have haddr := (hb.held hm hi (by rw [hfields]; exact (by decide : T_FILE ≠ 0)) hM hholds hp).1
    rw [Nat.mul_div_cancel k (by decide)] at haddr
    rwa [hd₂, hl₂.same.block, hb.dinode]
  have hbytes : (s₂.itable ip).d.bytes s₂.block = f.bytes := by
    rw [hd₂, hl₂.same.block, hb.dinode]
    exact hb.file_bytes hm hfit hf
  intro dst off n hdst hlt
  exact ⟨_, rfl, by rw [← hbytes]; exact readi_eq hsolid hdst hlt⟩

/-- The image of one small file, found under "/hi". -/
theorem mkfs_kernel_agree_hello : ∃ t s cwd ip s₁ s₂, main [hello] {} = .ok ((), t) ∧ fsinit t.sect = .ok s ∧
    namei cwd [47, 104, 105] s = .ok (some ip, s₁) ∧ ilock ip s₁ = .ok ((), s₂) ∧ (s₂.itable ip).d.size = 5 := by
  have hfit : Mkfs.Fits [hello] := ⟨by decide, by decide, by decide, by decide⟩
  obtain ⟨t, s, hmain, hinit, hall⟩ := mkfs_kernel_agree hfit (by decide) (by decide)
  obtain ⟨ip, s₁, s₂, hnamei, hlock, -, -, hsize, -⟩ := hall 0 hello rfl 0
  exact ⟨t, s, 0, ip, s₁, s₂, hmain, hinit, hnamei, hlock, hsize⟩

end Xv6.Fs
