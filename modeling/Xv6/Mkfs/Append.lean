/-
iappend: bytes appended to a file of the image. Blocks are handed out in order from
`freeblock`, so the blocks of all files together are those between the meta blocks and
`freeblock`, each once; blocks not handed out yet are zero. `iappend` extends one file
by the bytes it is given and leaves every other file and inode as it is.
-/
import Xv6.Mkfs.Model

namespace Xv6.Mkfs

open Lib

variable {img : Nat → Block} {d : Dinode} {s : Image} {nb : Nat} {ind : Prop} {O : Multiset Nat}

/-! ## The blocks of a file -/

/-- The file has its first `nb` blocks and no other; `ind` says whether it has an indirect block. -/
structure Mapped (img : Nat → Block) (d : Dinode) (nb : Nat) (ind : Prop) : Prop where
  wf : d.Wf
  addr : ∀ k < MAXFILE, d.addr img k ≠ 0 ↔ k < nb
  indirect : d.addrs NDIRECT ≠ 0 ↔ ind

/-- The blocks handed out. -/
def handedOut (s : Image) : Multiset Nat := (Finset.Ico nmeta s.freeblock).val

/-- The image with a file `d` beside the blocks `O` of the other files. -/
structure Beside (s : Image) (d : Dinode) (nb : Nat) (ind : Prop) (O : Multiset Nat) : Prop where
  nsect : s.nsect = FSSIZE
  lo : nmeta ≤ s.freeblock
  hi : s.freeblock ≤ FSSIZE
  zero : ∀ b, s.freeblock ≤ b → b < FSSIZE → s.sect b = Buffer.fill 0
  mapped : Mapped s.sect d nb ind
  refs : d.refs s.sect + O = handedOut s

theorem Ico_succ_val {a b : Nat} (h : a ≤ b) : (Finset.Ico a (b + 1)).val = {b} + (Finset.Ico a b).val := by
  rw [Nat.Ico_succ_right_eq_insert_Ico h, Finset.insert_val_of_notMem (by simp)]
  rfl

theorem handedOut_congr {s' : Image} (h : s'.freeblock = s.freeblock) : handedOut s' = handedOut s := by
  rw [handedOut, h, handedOut]

theorem mem_handedOut {b : Nat} : b ∈ handedOut s ↔ nmeta ≤ b ∧ b < s.freeblock := by
  rw [handedOut, Finset.mem_val, Finset.mem_Ico]

namespace Beside

variable (h : Beside s d nb ind O)
include h

theorem mem {b : Nat} (hb : b ∈ d.refs s.sect) : nmeta ≤ b ∧ b < s.freeblock :=
  mem_handedOut.mp (h.refs ▸ Multiset.mem_add.mpr (.inl hb))

theorem nodup : (d.refs s.sect + O).Nodup := h.refs ▸ Finset.nodup _

theorem lt_nsect {b : Nat} (hb : b ∈ d.refs s.sect) : b < s.nsect := by
  rw [h.nsect]
  exact (h.mem hb).2.trans_le h.hi

end Beside

/-! ## New blocks -/

/-- The next block is taken. -/
def Image.took (s : Image) : Image := { s with freeblock := s.freeblock + 1 }

theorem nextblock_eq : nextblock s = .ok (s.freeblock, s.took) := rfl

theorem assert_ok {φ : Prop} [Decidable φ] (h : φ) : assert φ s = .ok ((), s) := by
  rw [assert, if_pos h]
  rfl

/-- The sector is written. -/
def Image.put (s : Image) (sec : Nat) (buf : Block) : Image :=
  { s with sect := Function.update s.sect sec buf, nsect := max s.nsect (sec + 1) }

theorem wsect_eq {sec : Nat} {buf : Block} : wsect sec buf s = .ok ((), s.put sec buf) := rfl

theorem sect_put {sec b : Nat} {buf : Block} : (s.put sec buf).sect b = if b = sec then buf else s.sect b :=
  Function.update_apply ..

theorem nsect_put {sec : Nat} {buf : Block} (h : sec < s.nsect) : (s.put sec buf).nsect = s.nsect := max_eq_left h

theorem rsect_eq {b : Nat} (hb : b < s.nsect) : rsect b s = .ok (s.sect b, s) := by
  change (if b < s.nsect then (pure (s.sect b) : Code Image Block) else Code.panic "read") s = _
  rw [if_pos hb]
  rfl

theorem FSSIZE_lt : FSSIZE < 2 ^ 32 := by decide

theorem nmeta_pos : 0 < nmeta := by decide

theorem Beside.addr_zero (h : Beside s d nb ind O) (hk : nb < MAXFILE) : d.addr s.sect nb = 0 := by
  by_contra hne
  exact absurd ((h.mapped.addr nb hk).mp hne) (lt_irrefl nb)

/-- What a new block has to bring with it. -/
theorem Beside.took {s' : Image} {d' : Dinode} {nb' : Nat} {ind' : Prop} (h : Beside s d nb ind O)
    (hroom : s.freeblock < FSSIZE) (hf : s'.freeblock = s.freeblock + 1) (hn : s'.nsect = s.nsect)
    (hz : ∀ b, s.freeblock < b → s'.sect b = s.sect b) (hm : Mapped s'.sect d' nb' ind')
    (hr : d'.refs s'.sect = {s.freeblock} + d.refs s.sect) : Beside s' d' nb' ind' O := by
  refine ⟨hn.trans h.nsect, ?_, by omega, fun b hb hlt => ?_, hm, ?_⟩
  · have := h.lo
    omega
  · rw [hz b (by omega)]
    exact h.zero b (by omega) hlt
  · rw [handedOut, hf, Ico_succ_val h.lo, ← handedOut, ← h.refs, hr, add_assoc]

/-- A new block at the end of the direct ones. -/
theorem Beside.direct (h : Beside s d nb ind O) (hk : nb < NDIRECT) (hroom : s.freeblock < FSSIZE) :
    Beside s.took (d.setAddr nb s.freeblock) (nb + 1) ind O := by
  have hN : NDIRECT = 12 := rfl
  have hM : MAXFILE = 268 := rfl
  have hlt := FSSIZE_lt
  have hpos := nmeta_pos
  have hlo := h.lo
  have hfb : s.freeblock ≠ 0 := by omega
  have hNk : (d.setAddr nb s.freeblock).addrs NDIRECT = d.addrs NDIRECT := by
    rw [Dinode.addrs_setAddr, if_neg (by omega)]
  have haddr (j : Nat) : (d.setAddr nb s.freeblock).addr s.sect j = if j = nb then s.freeblock else d.addr s.sect j :=
    Dinode.addr_setAddr hk
  refine h.took hroom rfl rfl (fun _ _ => rfl) ⟨h.mapped.wf.setAddr (by omega) (by omega), fun k hk => ?_, ?_⟩ ?_
  · change Dinode.addr _ s.sect k ≠ 0 ↔ _
    rw [haddr]
    split
    · omega
    · rw [h.mapped.addr k hk]
      omega
  · rw [hNk, h.mapped.indirect]
  · exact Dinode.refs_setAddr hk ((Dinode.addr_direct hk).symm.trans (h.addr_zero (by omega))) hfb

/-- A new indirect block. -/
theorem Beside.indirect (h : Beside s d nb False O) (hroom : s.freeblock < FSSIZE) :
    Beside s.took (d.setAddr NDIRECT s.freeblock) nb True O := by
  have hN : NDIRECT = 12 := rfl
  have hM : MAXFILE = 268 := rfl
  have hlt := FSSIZE_lt
  have hpos := nmeta_pos
  have hlo := h.lo
  have hfb : s.freeblock ≠ 0 := by omega
  have h0 : d.addrs NDIRECT = 0 := by
    by_contra hne
    exact h.mapped.indirect.mp hne
  have hNk : (d.setAddr NDIRECT s.freeblock).addrs NDIRECT = s.freeblock := by
    rw [Dinode.addrs_setAddr, if_pos rfl]
  have hzero := h.zero _ le_rfl hroom
  refine h.took hroom rfl rfl (fun _ _ => rfl) ⟨h.mapped.wf.setAddr le_rfl (by omega), fun k hk => ?_, ?_⟩ ?_
  · change Dinode.addr _ s.sect k ≠ 0 ↔ _
    rw [Dinode.addr_setIndirect h0 hzero, h.mapped.addr k hk]
  · rw [hNk]
    simp only [iff_true]
    omega
  · exact Dinode.refs_setIndirect h0 hzero hfb

/-- A new block at the end of those the indirect block lists. -/
theorem Beside.listed (h : Beside s d nb True O) (hk : NDIRECT ≤ nb) (hm : nb < MAXFILE) (hroom : s.freeblock < FSSIZE) :
    Beside (s.took.put (d.addrs NDIRECT) ((s.sect (d.addrs NDIRECT)).setWord (nb - NDIRECT) s.freeblock)) d (nb + 1) True
      O := by
  have hN : NDIRECT = 12 := rfl
  have hM : MAXFILE = 268 := rfl
  have hI : NINDIRECT = 256 := rfl
  have hlt := FSSIZE_lt
  have hpos := nmeta_pos
  have hlo := h.lo
  have hfb : s.freeblock ≠ 0 := by omega
  have hne : d.addrs NDIRECT ≠ 0 := h.mapped.indirect.mpr trivial
  have hmem := h.mem (Dinode.indirect_mem _ hne)
  have haddr (j : Nat) (hj : j < MAXFILE) : d.addr (Function.update s.sect (d.addrs NDIRECT)
      ((s.sect (d.addrs NDIRECT)).setWord (nb - NDIRECT) s.freeblock)) j =
      if j = nb then s.freeblock else d.addr s.sect j := Dinode.addr_setWord _ hne hk hj (by omega)
  refine h.took hroom rfl (nsect_put (h.lt_nsect (Dinode.indirect_mem _ hne))) (fun b hb => ?_)
    ⟨h.mapped.wf, fun k hk => ?_, h.mapped.indirect⟩ ?_
  · exact Function.update_of_ne (by omega) _ _
  · change d.addr (Function.update s.sect _ _) k ≠ 0 ↔ _
    rw [haddr k hk]
    split
    · omega
    · rw [h.mapped.addr k hk]
      omega
  · exact Dinode.refs_setWord hne hk hm (h.addr_zero hm) hfb (by omega)

/-- `nb` blocks and the one that lists those behind the direct ones. -/
def withIndirect (nb : Nat) : Nat := if NDIRECT < nb then nb + 1 else nb

/-- What the file had before is where it was, and only its indirect block has changed. -/
structure Grown (s s' : Image) (d d' : Dinode) (nb : Nat) : Prop where
  freeinode : s'.freeinode = s.freeinode
  fields : d' = { d with addrs := d'.addrs }
  addr : ∀ k < nb, d'.addr s'.sect k = d.addr s.sect k
  sect : ∀ b < s.freeblock, (d.addrs NDIRECT ≠ 0 → b ≠ d.addrs NDIRECT) → s'.sect b = s.sect b

theorem Grown.rfl : Grown s s d d nb := ⟨Eq.refl _, Eq.refl _, fun _ _ => Eq.refl _, fun _ _ _ => Eq.refl _⟩

/-- The indirect block, for a file that fills its direct blocks. -/
theorem iappendIndirect_spec (h : Beside s d nb (NDIRECT < nb) O) (hd : NDIRECT ≤ nb)
    (hroom : s.freeblock + nb + 1 ≤ FSSIZE + withIndirect nb) :
    (iappendIndirect d).Returns s fun d' s' => Beside s' d' nb True O ∧ Grown s s' d d' nb ∧
      s'.freeblock + withIndirect nb = s.freeblock + nb + 1 ∧ (d'.addrs NDIRECT < s.freeblock → d' = d) := by
  rw [iappendIndirect]
  by_cases h0 : d.addrs NDIRECT = 0
  · have hnb : ¬ NDIRECT < nb := fun hlt => h.mapped.indirect.mpr hlt h0
    rw [if_pos h0]
    rw [eq_false hnb] at h
    rw [withIndirect, if_neg hnb] at hroom ⊢
    refine .step nextblock_eq (.pure ⟨h.indirect (by omega), ⟨rfl, rfl, fun k hk => ?_, fun _ _ _ => rfl⟩, ?_,
      fun hlt => ?_⟩)
    · rw [Dinode.addr_direct (by omega), Dinode.addr_direct (by omega), Dinode.addrs_setAddr, if_neg (by omega)]
    · exact Nat.add_right_comm _ _ _
    · rw [Dinode.addrs_setAddr, if_pos rfl] at hlt
      exact absurd hlt (lt_irrefl _)
  · have hnb := h.mapped.indirect.mp h0
    rw [if_neg h0]
    rw [eq_true hnb] at h
    rw [withIndirect, if_pos hnb]
    exact .pure ⟨h, .rfl, (Nat.add_assoc _ _ _).symm, fun _ => rfl⟩

/-- **The block for the next byte**: it is there, or it is new and zero. -/
theorem iappendBlock_spec {fbn : Nat} (h : Beside s d nb (NDIRECT < nb) O) (hf : fbn ≤ nb) (hm : fbn < MAXFILE)
    (hroom : s.freeblock + withIndirect (max nb (fbn + 1)) ≤ FSSIZE + withIndirect nb) :
    (iappendBlock d fbn).Returns s fun r s' =>
      Beside s' r.1 (max nb (fbn + 1)) (NDIRECT < max nb (fbn + 1)) O ∧ r.2 = r.1.addr s'.sect fbn ∧
      s'.freeblock + withIndirect nb = s.freeblock + withIndirect (max nb (fbn + 1)) ∧ Grown s s' d r.1 nb ∧
      (fbn = nb → s'.sect r.2 = Buffer.fill 0) := by
  have hN : NDIRECT = 12 := rfl
  have hM : MAXFILE = 268 := rfl
  have haddr := h.mapped.addr fbn hm
  rw [iappendBlock]
  by_cases hd : fbn < NDIRECT
  · rw [if_pos hd]
    rw [Dinode.addr_direct hd] at haddr
    by_cases h0 : d.addrs fbn = 0
    · -- the next direct block
      obtain rfl : fbn = nb := by
        have := mt haddr.mpr (not_not.mpr h0)
        omega
      rw [if_pos h0]
      have hmax : max fbn (fbn + 1) = fbn + 1 := by omega
      have hi : (NDIRECT < fbn + 1) ↔ NDIRECT < fbn := by omega
      rw [hmax] at hroom ⊢
      rw [withIndirect, withIndirect, if_neg (by omega), if_neg (by omega)] at hroom
      refine .step nextblock_eq (.pure ⟨?_, ?_, ?_, ⟨rfl, rfl, fun k hk => ?_, fun _ _ _ => rfl⟩, fun _ => ?_⟩)
      · rw [propext hi]
        exact h.direct hd (by omega)
      · rw [Dinode.addr_direct hd, Dinode.addrs_setAddr, if_pos rfl]
      · rw [withIndirect, withIndirect, if_neg (by omega), if_neg (by omega)]
        exact Nat.add_right_comm _ _ _
      · rw [Dinode.addr_direct (by omega), Dinode.addr_direct (by omega), Dinode.addrs_setAddr, if_neg (by omega)]
      · exact h.zero _ le_rfl (by omega)
    · rw [if_neg h0]
      have hlt := haddr.mp h0
      rw [max_eq_left hlt]
      exact .pure ⟨h, (Dinode.addr_direct hd).symm, rfl, .rfl, fun he => absurd he (by omega)⟩
  · rw [if_neg hd]
    have hnb : NDIRECT ≤ nb := by omega
    have hroom' : s.freeblock + nb + 1 ≤ FSSIZE + withIndirect nb := by
      unfold withIndirect at hroom ⊢
      split_ifs at hroom ⊢ <;> omega
    refine .bind (iappendIndirect_spec h hnb hroom') fun d₁ s₁ ⟨h₁, hg, hfree, hkeep⟩ => ?_
    have hne : d₁.addrs NDIRECT ≠ 0 := h₁.mapped.indirect.mpr trivial
    have hmem := Dinode.indirect_mem s₁.sect hne
    refine .step (rsect_eq (h₁.lt_nsect hmem)) ?_
    rw [← Dinode.addr_indirect (by omega) hne]
    have haddr₁ := h₁.mapped.addr fbn hm
    by_cases h0 : d₁.addr s₁.sect fbn = 0
    · -- then the next block it lists
      obtain rfl : fbn = nb := by
        have := mt haddr₁.mpr (not_not.mpr h0)
        omega
      rw [if_pos h0]
      have hmax : max fbn (fbn + 1) = fbn + 1 := by omega
      have hi : NDIRECT < fbn + 1 := by omega
      rw [hmax] at hroom ⊢
      rw [withIndirect, if_pos hi] at hroom
      have hlt : s₁.freeblock < FSSIZE := by omega
      have hfs := FSSIZE_lt
      have hb : Beside _ d₁ (fbn + 1) True O := h₁.listed (by omega) hm hlt
      have haddr' (k : Nat) (hk : k < MAXFILE) := Dinode.addr_setWord s₁.sect (k := fbn) (a := s₁.freeblock) hne
        (by omega) hk (by omega)
      have hmem' := h₁.mem hmem
      refine .step nextblock_eq (.step wsect_eq (.pure ⟨?_, ?_, ?_, ⟨hg.freeinode, hg.fields, fun k hk => ?_,
        fun b hb hbn => ?_⟩, fun _ => ?_⟩))
      · rwa [eq_true hi]
      · exact ((haddr' fbn hm).trans (if_pos rfl)).symm
      · rw [show withIndirect (fbn + 1) = fbn + 1 + 1 from if_pos hi]
        change s₁.freeblock + 1 + _ = _
        omega
      · rw [← hg.addr k hk]
        exact (haddr' k (by omega)).trans (if_neg (by omega))
      · rw [← hg.sect b hb hbn]
        refine Function.update_of_ne ?_ _ _
        rintro rfl
        have he := hkeep hb
        rw [he] at hbn hne
        exact hbn hne rfl
      · rw [← h₁.zero _ le_rfl hlt]
        exact Function.update_of_ne (by omega) _ _
    · rw [if_neg h0]
      have hlt := haddr₁.mp h0
      rw [max_eq_left hlt] at hroom ⊢
      refine .pure ⟨?_, rfl, ?_, hg, fun he => absurd he (by omega)⟩
      · rwa [eq_true (show NDIRECT < nb by omega)]
      · rw [hfree, withIndirect, if_pos (by omega)]
        omega

/-! ## The bytes of a file -/

variable {c : List UInt8}

/-- The blocks of the file hold the bytes `c`, and zeros behind them. -/
structure Holds (img : Nat → Block) (d : Dinode) (c : List UInt8) : Prop where
  mapped : Mapped img d (blocksOf c.length) (NDIRECT < blocksOf c.length)
  byte : ∀ j < blocksOf c.length * BSIZE, Buffer.bytes (img (d.addr img (j / BSIZE))) (j % BSIZE) = c.getD j 0

/-- The image with a file of bytes `c` beside the blocks `O` of the other files. -/
structure Filed (s : Image) (d : Dinode) (c : List UInt8) (O : Multiset Nat) : Prop where
  beside : Beside s d (blocksOf c.length) (NDIRECT < blocksOf c.length) O
  byte : ∀ j < blocksOf c.length * BSIZE, Buffer.bytes (s.sect (d.addr s.sect (j / BSIZE))) (j % BSIZE) = c.getD j 0

/-- The blocks of a file of `n` bytes, with the indirect one. -/
def fileBlocks (n : Nat) : Nat := withIndirect (blocksOf n)

/-- What does not belong to the file is as it was. -/
def Others (s s' : Image) (O : Multiset Nat) : Prop :=
  s'.freeinode = s.freeinode ∧ ∀ b, b < nmeta ∨ b ∈ O → s'.sect b = s.sect b

/-- Writing into one of the file's blocks keeps its structure. -/
theorem Beside.put {k : Nat} (buf : Block) (h : Beside s d nb ind O) (hk : k < nb) (hm : nb ≤ MAXFILE) :
    Beside (s.put (d.addr s.sect k) buf) d nb ind O ∧ d.addr (s.put (d.addr s.sect k) buf).sect = d.addr s.sect := by
  have hne := (h.mapped.addr k (by omega)).mpr hk
  have hmem : d.addr s.sect k ∈ d.refs s.sect := Dinode.addr_mem (by omega) hne
  have hind := Dinode.addr_ne_indirect (Multiset.nodup_add.mp h.nodup).1 (by omega) hne
  have hsame : d.addrs NDIRECT ≠ 0 → (s.put (d.addr s.sect k) buf).sect (d.addrs NDIRECT) = s.sect (d.addrs NDIRECT) :=
    fun _ => Function.update_of_ne hind.symm _ _
  have haddr := Dinode.addr_congr hsame
  refine ⟨⟨(nsect_put (h.lt_nsect hmem)).trans h.nsect, h.lo, h.hi, fun b hb hlt => ?_,
    ⟨h.mapped.wf, ?_, h.mapped.indirect⟩, ?_⟩, haddr⟩
  · rw [← h.zero b hb hlt]
    refine Function.update_of_ne ?_ _ _
    rintro rfl
    exact absurd (h.mem hmem).2 (Nat.not_lt.mpr hb)
  · rw [haddr]
    exact h.mapped.addr
  · rw [Dinode.refs_congr hsame]
    exact h.refs

theorem getD_append {q : List UInt8} {j : Nat} :
    (c ++ q).getD j 0 = if c.length ≤ j then q.getD (j - c.length) 0 else c.getD j 0 := by
  simp only [List.getD_eq_getElem?_getD, List.getElem?_append]
  split_ifs <;> first | rfl | omega

/-- **One turn of the loop**: as many bytes as fit in the block. -/
theorem append_block {q : List UInt8} (h : Filed s d c O) (hq : q ≠ [])
    (hfit : q.length ≤ (c.length / BSIZE + 1) * BSIZE - c.length) (hm : c.length / BSIZE < MAXFILE)
    (hroom : s.freeblock + fileBlocks (c ++ q).length ≤ FSSIZE + fileBlocks c.length) :
    (iappendBlock d (c.length / BSIZE)).Returns s fun r s₁ => r.2 < s₁.nsect ∧
      ∀ s₂, s₂ = s₁.put r.2 (Buffer.write (s₁.sect r.2) (c.length - c.length / BSIZE * BSIZE) q) →
        Filed s₂ r.1 (c ++ q) O ∧ r.1 = { d with addrs := r.1.addrs } ∧ Others s s₂ O ∧
        s₂.freeblock + fileBlocks c.length = s.freeblock + fileBlocks (c ++ q).length := by
  have hB : BSIZE = 1024 := rfl
  have hpos : 0 < q.length := List.length_pos_iff.mpr hq
  have hlen : (c ++ q).length = c.length + q.length := List.length_append
  have hnb : max (blocksOf c.length) (c.length / BSIZE + 1) = blocksOf (c ++ q).length := by
    simp only [blocksOf, hlen, hB] at hfit ⊢
    omega
  have hle : c.length / BSIZE ≤ blocksOf c.length := by
    simp only [blocksOf, hB]
    omega
  have hend : blocksOf (c ++ q).length = c.length / BSIZE + 1 := by
    simp only [blocksOf, hlen, hB] at hfit ⊢
    omega
  rw [fileBlocks, fileBlocks, ← hnb] at hroom
  refine (iappendBlock_spec h.beside hle hm hroom).mono fun r s₁ h₁ => ?_
  obtain ⟨hb, hx, hfree, hg, hz⟩ := h₁
  rw [hnb] at hb hfree
  have hk : c.length / BSIZE < blocksOf (c ++ q).length := by omega
  have hput := hb.put (Buffer.write (s₁.sect r.2) (c.length - c.length / BSIZE * BSIZE) q) hk (by omega)
  have hne := (hb.mapped.addr _ hm).mpr hk
  have hmem : r.2 ∈ r.1.refs s₁.sect := Dinode.mem_refs.mpr ⟨hx ▸ hne, .inr ⟨_, hm, hx.symm⟩⟩
  rw [← hx] at hput
  have hold (b : Nat) (hlt : b < s.freeblock) (hbx : b ≠ r.2) (hbn : d.addrs NDIRECT ≠ 0 → b ≠ d.addrs NDIRECT) :
      (s₁.put r.2 (Buffer.write (s₁.sect r.2) (c.length - c.length / BSIZE * BSIZE) q)).sect b = s.sect b :=
    (Function.update_of_ne hbx _ _).trans (hg.sect b hlt hbn)
  have hdata (k : Nat) (hk : k < blocksOf c.length) : d.addr s.sect k < s.freeblock ∧
      (d.addrs NDIRECT ≠ 0 → d.addr s.sect k ≠ d.addrs NDIRECT) := by
    have hkm : k < MAXFILE := by omega
    have hkn := (h.beside.mapped.addr k hkm).mpr hk
    refine ⟨(h.beside.mem (Dinode.addr_mem hkm hkn)).2, fun _ => ?_⟩
    exact Dinode.addr_ne_indirect (Multiset.nodup_add.mp h.beside.nodup).1 hkm hkn
  have hblk (j : Nat) (hj : j / BSIZE = c.length / BSIZE) : Buffer.bytes (s₁.sect r.2) (j % BSIZE) = c.getD j 0 := by
    by_cases hnew : c.length / BSIZE = blocksOf c.length
    · rw [hz hnew, Buffer.bytes_fill (Nat.mod_lt _ (by decide)), List.getD_eq_default]
      simp only [blocksOf, hB] at hnew hj
      omega
    · have hlt : c.length / BSIZE < blocksOf c.length := by omega
      rw [hx, hg.addr _ hlt, hg.sect _ (hdata _ hlt).1 (hdata _ hlt).2, ← hj, h.byte j]
      simp only [hB] at hj hlt ⊢
      omega
  refine ⟨hb.lt_nsect hmem, fun s₂ hs₂ => ?_⟩
  subst hs₂
  refine ⟨⟨hput.1, fun j hj => ?_⟩, hg.fields, ⟨hg.freeinode, fun b hbO => ?_⟩, hfree⟩
  · rw [hput.2]
    by_cases hjk : j / BSIZE = c.length / BSIZE
    · -- in the block written
      rw [hjk, ← hx]
      rw [sect_put, if_pos rfl, Buffer.bytes_write (Nat.mod_lt _ (by decide)), getD_append]
      have hmod : j % BSIZE - (c.length - c.length / BSIZE * BSIZE) = j - c.length := by
        simp only [hB] at hjk ⊢
        omega
      have hcmp : c.length - c.length / BSIZE * BSIZE ≤ j % BSIZE ↔ c.length ≤ j := by
        simp only [hB] at hjk ⊢
        omega
      simp only [hmod, hcmp]
      by_cases hjc : c.length ≤ j
      · rw [if_pos hjc]
        by_cases hjq : j - c.length < q.length
        · rw [dif_pos ⟨hjc, hjq⟩, List.getD_eq_getElem _ _ hjq]
        · rw [dif_neg fun hh => hjq hh.2, List.getD_eq_default _ _ (Nat.le_of_not_lt hjq), hblk j hjk,
            List.getD_eq_default _ _ hjc]
      · rw [dif_neg fun hh => hjc hh.1, if_neg hjc, hblk j hjk]
    · -- in a block before it
      have hlt : j / BSIZE < c.length / BSIZE := by
        simp only [hend, hB] at hj hjk ⊢
        omega
      have hjn : j / BSIZE < blocksOf c.length := by omega
      have hjc : ¬ c.length ≤ j := by
        simp only [hB] at hlt
        omega
      rw [hg.addr _ hjn, hold _ (hdata _ hjn).1 _ (hdata _ hjn).2, h.byte j, getD_append, if_neg hjc]
      · simp only [hB] at hjn ⊢
        omega
      · rw [hx, ← hg.addr _ hjn]
        intro he
        have hjm : j / BSIZE < MAXFILE := by omega
        have hjr := (hb.mapped.addr _ hjm).mpr (by omega)
        exact hjk (Dinode.addr_inj (Multiset.nodup_add.mp hb.nodup).1 hjm hm hjr he)
  · have hbx := hb.mem hmem
    have hlo := h.beside.lo
    rcases hbO with hbm | hbO
    · refine hold b (by omega) (by omega) fun hn => ?_
      have := (h.beside.mem (Dinode.indirect_mem _ hn)).1
      omega
    · have hbs := mem_handedOut.mp (h.beside.refs ▸ Multiset.mem_add.mpr (.inr hbO))
      refine hold b hbs.2 ?_ fun hn => ?_
      · rintro rfl
        exact Multiset.disjoint_left.mp (Multiset.nodup_add.mp hb.nodup).2.2 hmem hbO
      · rintro rfl
        exact Multiset.disjoint_left.mp (Multiset.nodup_add.mp h.beside.nodup).2.2 (Dinode.indirect_mem _ hn) hbO

theorem Others.trans {s₁ s₂ : Image} (h : Others s s₁ O) (h' : Others s₁ s₂ O) : Others s s₂ O :=
  ⟨h'.1.trans h.1, fun b hb => (h'.2 b hb).trans (h.2 b hb)⟩

theorem fileBlocks_mono {m n : Nat} (h : m ≤ n) : fileBlocks m ≤ fileBlocks n := by
  have hle : blocksOf m ≤ blocksOf n := Nat.div_le_div_right (by omega)
  unfold fileBlocks withIndirect
  split_ifs <;> omega

/-- **The loop of iappend** leaves the file with the bytes it was given at its end. -/
theorem iappendLoop_spec {fuel : Nat} {p : List UInt8} (h : Filed s d c O) (hf : p.length ≤ fuel)
    (hmax : (c ++ p).length ≤ MAXFILE * BSIZE)
    (hroom : s.freeblock + fileBlocks (c ++ p).length ≤ FSSIZE + fileBlocks c.length) :
    (iappendLoop fuel d c.length p).Returns s fun r s' => Filed s' r.1 (c ++ p) O ∧ r.2 = (c ++ p).length ∧
      r.1 = { d with addrs := r.1.addrs } ∧ Others s s' O ∧
      s'.freeblock + fileBlocks c.length = s.freeblock + fileBlocks (c ++ p).length := by
  have hB : BSIZE = 1024 := rfl
  induction fuel generalizing s d c p with
  | zero =>
    obtain rfl : p = [] := List.length_eq_zero_iff.mp (by omega)
    rw [List.append_nil]
    exact .pure ⟨h, rfl, rfl, ⟨rfl, fun _ _ => rfl⟩, rfl⟩
  | succ fuel ih =>
    rw [iappendLoop]
    by_cases hp : p = []
    · subst hp
      rw [if_pos rfl, List.append_nil]
      exact .pure ⟨h, rfl, rfl, ⟨rfl, fun _ _ => rfl⟩, rfl⟩
    rw [if_neg hp]
    have hpos : 0 < p.length := List.length_pos_iff.mpr hp
    rw [List.length_append] at hmax
    have hm : c.length / BSIZE < MAXFILE := by
      rw [Nat.div_lt_iff_lt_mul (by decide)]
      omega
    generalize hn : min p.length ((c.length / BSIZE + 1) * BSIZE - c.length) = n1
    have hn1 : 0 < n1 ∧ n1 ≤ p.length ∧ n1 ≤ (c.length / BSIZE + 1) * BSIZE - c.length := by
      simp only [hB] at hn ⊢
      omega
    have hsplit : c ++ p = c ++ p.take n1 ++ p.drop n1 := by rw [List.append_assoc, List.take_append_drop]
    have hlen : (c ++ p.take n1).length = c.length + n1 := by simp [hn1.2.1]
    have hmono : fileBlocks (c ++ p.take n1).length ≤ fileBlocks (c ++ p).length :=
      fileBlocks_mono (by simp [hn1.2.1])
    have hq : p.take n1 ≠ [] := by
      rw [← List.length_pos_iff, List.length_take]
      omega
    refine .step (assert_ok hm) ?_
    refine .bind (append_block h hq (by rw [List.length_take]; omega) hm (by omega)) fun r s₁ ⟨hx, hstep⟩ => ?_
    obtain ⟨hfiled, hfields, hothers, hfree⟩ := hstep _ rfl
    refine .step (rsect_eq hx) (.step wsect_eq ?_)
    rw [hn, ← hlen, hsplit]
    refine (ih hfiled (by rw [List.length_drop]; omega) ?_ ?_).mono ?_
    · rw [← hsplit, List.length_append]
      exact hmax
    · rw [← hsplit]
      omega
    · rintro r' s' ⟨h1, h2, h3, h4, h5⟩
      refine ⟨h1, h2, ?_, hothers.trans h4, by omega⟩
      rw [h3, hfields]

end Xv6.Mkfs
