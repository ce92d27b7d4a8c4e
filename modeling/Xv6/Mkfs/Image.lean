/-
The image mkfs writes. Its files are the root directory and the input files, each with
the bytes it was given (`main_made`); the blocks between the meta blocks and `freeblock`
each belong to one file, and the bitmap marks the blocks below `freeblock`. The root
directory's size is rounded up to whole blocks afterwards, by one block too many when
its entries fill their blocks: then, and only then, the image has an inode with a hole
(`image_consistent`).
-/
import Xv6.Mkfs.Append

namespace Xv6.Mkfs

open Lib

variable {s : Image} {Γ : List (Nat × List UInt8)} {i : Nat}

/-! ## The files of an image -/

/-- The blocks of all files. -/
def total (Γ : List (Nat × List UInt8)) : Nat := (Γ.map fun f => fileBlocks f.2.length).sum

theorem total_append {Δ : List (Nat × List UInt8)} : total (Γ ++ Δ) = total Γ + total Δ := by
  rw [total, List.map_append, List.sum_append, total, total]

theorem total_cons {f : Nat × List UInt8} : total (f :: Γ) = fileBlocks f.2.length + total Γ := rfl

/-- The files of an image: inode `i + 1` is `Γ[i]`, its type and its bytes. -/
structure Inv (s : Image) (Γ : List (Nat × List UInt8)) : Prop where
  nsect : s.nsect = FSSIZE
  freeinode : s.freeinode = Γ.length + 1
  count : Γ.length < NINODES
  sizes : ∀ f ∈ Γ, f.2.length ≤ MAXFILE * BSIZE
  freeblock : s.freeblock = nmeta + total Γ
  hi : s.freeblock ≤ FSSIZE
  super : s.sect 1 = sb.encode
  log : ∀ b, 2 ≤ b → b < 2 + nlog → s.sect b = Buffer.fill 0
  zero : ∀ b, s.freeblock ≤ b → b < FSSIZE → s.sect b = Buffer.fill 0
  fields : ∀ i f, Γ[i]? = some f → sb.inode s.sect (i + 1) =
    { type := f.1, nlink := 1, size := f.2.length, addrs := (sb.inode s.sect (i + 1)).addrs }
  holds : ∀ i f, Γ[i]? = some f → Holds s.sect (sb.inode s.sect (i + 1)) f.2
  unused : ∀ i < NINODES, i = 0 ∨ Γ.length < i → sb.inode s.sect i = {}
  refs : ∑ i ∈ Finset.range Γ.length, (sb.inode s.sect (i + 1)).refs s.sect = handedOut s

theorem Holds.congr {img img' : Nat → Block} {d : Dinode} {c : List UInt8} (h : Holds img d c)
    (hm : blocksOf c.length ≤ MAXFILE) (hs : ∀ b ∈ d.refs img, img' b = img b) :
    Holds img' d c ∧ d.refs img' = d.refs img := by
  have hind : d.addrs NDIRECT ≠ 0 → img' (d.addrs NDIRECT) = img (d.addrs NDIRECT) := fun hn =>
    hs _ (Dinode.indirect_mem _ hn)
  have haddr := Dinode.addr_congr hind
  refine ⟨⟨⟨h.mapped.wf, ?_, h.mapped.indirect⟩, fun j hj => ?_⟩, Dinode.refs_congr hind⟩
  · rw [haddr]
    exact h.mapped.addr
  · have hk : j / BSIZE < blocksOf c.length := (Nat.div_lt_iff_lt_mul (by decide)).mpr hj
    have hn := (h.mapped.addr _ (by omega)).mpr hk
    rw [haddr, hs _ (Dinode.mem_refs.mpr ⟨hn, .inr ⟨_, by omega, rfl⟩⟩), h.byte j hj]

theorem IBLOCK_lt (h : i < NINODES) : 2 + nlog ≤ sb.IBLOCK i ∧ sb.IBLOCK i < nmeta := by
  have h1 : NINODES = 200 := rfl
  have h2 : nmeta = 46 := by decide
  have h3 : nlog = 30 := rfl
  have h4 : IPB = 16 := rfl
  simp only [Superblock.IBLOCK, sb, h3, h4, h2]
  omega

theorem IBLOCK_ne (h : i < NINODES) : sb.IBLOCK i ≠ sb.bmapstart := by
  have h1 : NINODES = 200 := rfl
  have h2 : sb.bmapstart = 45 := by decide
  have h3 : sb.inodestart = 32 := rfl
  have h4 : IPB = 16 := rfl
  rw [Superblock.IBLOCK, h2, h3, h4]
  omega

/-- Inode `inum` is written back. -/
def Image.putInode (s : Image) (inum : Nat) (d : Dinode) : Image :=
  s.put (sb.IBLOCK inum) ((s.sect (sb.IBLOCK inum)).setInode inum d)

theorem winode_eq {inum : Nat} {d : Dinode} (h : sb.IBLOCK inum < s.nsect) :
    winode inum d s = .ok ((), s.putInode inum d) := by
  rw [winode, Code.bind_ok (rsect_eq h)]
  rfl

theorem rinode_eq {inum : Nat} (h : sb.IBLOCK inum < s.nsect) : rinode inum s = .ok (sb.inode s.sect inum, s) := by
  rw [rinode, Code.bind_ok (rsect_eq h)]
  rfl

theorem inode_putInode {inum j : Nat} {d : Dinode} (h : d.Wf) :
    sb.inode (s.putInode inum d).sect j = if j = inum then d else sb.inode s.sect j :=
  Superblock.inode_setInode h

theorem sect_putInode {inum b : Nat} {d : Dinode} (h : b ≠ sb.IBLOCK inum) : (s.putInode inum d).sect b = s.sect b :=
  Function.update_of_ne h _ _

/-- The blocks of the other files. -/
def othersOf (s : Image) (Γ : List (Nat × List UInt8)) (i : Nat) : Multiset Nat :=
  ∑ j ∈ (Finset.range Γ.length).erase i, (sb.inode s.sect (j + 1)).refs s.sect

theorem Inv.lo (h : Inv s Γ) : nmeta ≤ s.freeblock := by
  rw [h.freeblock]
  omega

theorem Inv.filed {f : Nat × List UInt8} (h : Inv s Γ) (hf : Γ[i]? = some f) :
    Filed s (sb.inode s.sect (i + 1)) f.2 (othersOf s Γ i) where
  beside := by
    refine ⟨h.nsect, h.lo, h.hi, h.zero, (h.holds i f hf).mapped, ?_⟩
    have hi := (List.getElem?_eq_some_iff.mp hf).1
    rw [othersOf, Finset.add_sum_erase _ (fun j => (sb.inode s.sect (j + 1)).refs s.sect) (Finset.mem_range.mpr hi),
      h.refs]
  byte := (h.holds i f hf).byte

/-- The files after bytes were appended to file `i`. -/
def appended (Γ : List (Nat × List UInt8)) (i : Nat) (p : List UInt8) : List (Nat × List UInt8) :=
  Γ.modify i fun f => (f.1, f.2 ++ p)

theorem length_appended {p : List UInt8} : (appended Γ i p).length = Γ.length := List.length_modify ..

theorem getElem?_appended {p : List UInt8} {j : Nat} :
    (appended Γ i p)[j]? = if i = j then Γ[j]?.map (fun f => (f.1, f.2 ++ p)) else Γ[j]? := by
  rw [appended, List.getElem?_modify]
  split <;> simp_all

theorem total_appended {p : List UInt8} {f : Nat × List UInt8} (hf : Γ[i]? = some f) :
    total (appended Γ i p) + fileBlocks f.2.length = total Γ + fileBlocks (f.2 ++ p).length := by
  unfold total appended
  induction Γ generalizing i with
  | nil => cases hf
  | cons g Γ ih =>
    cases i with
    | zero =>
      cases hf
      simp only [List.modify_zero_cons, List.map_cons, List.sum_cons]
      omega
    | succ i =>
      have := ih (i := i) hf
      simp only [List.modify_succ_cons, List.map_cons, List.sum_cons] at this ⊢
      omega

/-- One file was changed in its own blocks and is written back: the others are what they were. -/
theorem Inv.written {f : Nat × List UInt8} {p : List UInt8} {s₁ : Image} {d : Dinode} (h : Inv s Γ) (hf : Γ[i]? = some f)
    (hmax : (f.2 ++ p).length ≤ MAXFILE * BSIZE) (hfiled : Filed s₁ d (f.2 ++ p) (othersOf s Γ i))
    (hd : d = { type := f.1, nlink := 1, size := (f.2 ++ p).length, addrs := d.addrs })
    (hothers : Others s s₁ (othersOf s Γ i)) (hfree : s₁.freeblock = nmeta + total (appended Γ i p)) :
    Inv (s₁.putInode (i + 1) d) (appended Γ i p) := by
  have hi : i < Γ.length := (List.getElem?_eq_some_iff.mp hf).1
  have hcount := h.count
  have hlo := hfiled.beside.lo
  have hib := IBLOCK_lt (i := i + 1) (by omega)
  have hwf := hfiled.beside.mapped.wf
  have hnlog : 2 ≤ 2 + nlog := Nat.le_add_right _ _
  have hinode (j : Nat) (hj : j < NINODES) :
      sb.inode (s₁.putInode (i + 1) d).sect j = if j = i + 1 then d else sb.inode s.sect j := by
    rw [inode_putInode hwf, Superblock.inode_congr (hothers.2 _ (.inl (IBLOCK_lt hj).2))]
  have hdata (b : Nat) (hb : nmeta ≤ b) : (s₁.putInode (i + 1) d).sect b = s₁.sect b := sect_putInode (by omega)
  have hmeta (b : Nat) (hb : b < 2 + nlog) : (s₁.putInode (i + 1) d).sect b = s.sect b := by
    rw [sect_putInode (by omega), hothers.2 b (.inl (by omega))]
  have hself : Holds (s₁.putInode (i + 1) d).sect d (f.2 ++ p) ∧
      d.refs (s₁.putInode (i + 1) d).sect = d.refs s₁.sect := by
    exact Holds.congr ⟨hfiled.beside.mapped, hfiled.byte⟩ (blocksOf_le hmax) fun b hb => hdata b (hfiled.beside.mem hb).1
  have hother (j : Nat) (g : Nat × List UInt8) (hg : Γ[j]? = some g) (hne : j ≠ i) :
      Holds (s₁.putInode (i + 1) d).sect (sb.inode s.sect (j + 1)) g.2 ∧
        (sb.inode s.sect (j + 1)).refs (s₁.putInode (i + 1) d).sect = (sb.inode s.sect (j + 1)).refs s.sect := by
    have hj : j < Γ.length := (List.getElem?_eq_some_iff.mp hg).1
    have hsz := h.sizes g (List.mem_of_getElem? hg)
    refine Holds.congr (h.holds j g hg) (blocksOf_le hsz) fun b hb => ?_
    have hbO : b ∈ othersOf s Γ i := Multiset.mem_sum.mpr ⟨j, Finset.mem_erase.mpr ⟨hne, Finset.mem_range.mpr hj⟩, hb⟩
    rw [hdata b ((h.filed hg).beside.mem hb).1, hothers.2 b (.inr hbO)]
  have hget (j : Nat) (g : Nat × List UInt8) (hg : (appended Γ i p)[j]? = some g) :
      j < Γ.length ∧ (j = i ∧ g = (f.1, f.2 ++ p) ∨ j ≠ i ∧ Γ[j]? = some g) := by
    refine ⟨length_appended ▸ (List.getElem?_eq_some_iff.mp hg).1, ?_⟩
    rw [getElem?_appended] at hg
    split at hg
    · next he =>
      subst he
      rw [hf] at hg
      exact .inl ⟨rfl, (Option.some.inj hg).symm⟩
    · next he => exact .inr ⟨Ne.symm he, hg⟩
  constructor
  · exact (nsect_put (by rw [hfiled.beside.nsect]; have := hfiled.beside.hi; omega)).trans hfiled.beside.nsect
  · rw [length_appended, ← h.freeinode, ← hothers.1]
    rfl
  · rwa [length_appended]
  · intro g hg
    obtain ⟨j, hj⟩ := List.getElem?_of_mem hg
    obtain ⟨-, ⟨rfl, rfl⟩ | ⟨-, hg'⟩⟩ := hget j g hj
    · exact hmax
    · exact h.sizes g (List.mem_of_getElem? hg')
  · exact hfree
  · exact hfiled.beside.hi
  · rw [hmeta 1 (by omega), h.super]
  · intro b h2 hb
    rw [hmeta b hb, h.log b h2 hb]
  · intro b hb hlt
    have hb : s₁.freeblock ≤ b := hb
    rw [hdata b (by omega), hfiled.beside.zero b hb hlt]
  · intro j g hg
    obtain ⟨hj, ⟨rfl, rfl⟩ | ⟨hne, hg'⟩⟩ := hget j g hg
    · rw [hinode _ (by omega), if_pos rfl]
      exact hd
    · rw [hinode _ (by omega), if_neg (by omega)]
      exact h.fields j g hg'
  · intro j g hg
    obtain ⟨hj, ⟨rfl, rfl⟩ | ⟨hne, hg'⟩⟩ := hget j g hg
    · rw [hinode _ (by omega), if_pos rfl]
      exact hself.1
    · rw [hinode _ (by omega), if_neg (by omega)]
      exact (hother j g hg' hne).1
  · intro j hj hu
    rw [length_appended] at hu
    rw [hinode j hj, if_neg (by omega), h.unused j hj hu]
  · have hout : handedOut (s₁.putInode (i + 1) d) = handedOut s₁ := handedOut_congr rfl
    rw [length_appended, hout, ← hfiled.beside.refs, othersOf, ← Finset.add_sum_erase (Finset.range Γ.length)
      (fun j => (sb.inode (s₁.putInode (i + 1) d).sect (j + 1)).refs (s₁.putInode (i + 1) d).sect)
      (Finset.mem_range.mpr hi), hinode _ (by omega), if_pos rfl, hself.2]
    refine congrArg _ (Finset.sum_congr rfl fun j hj => ?_)
    obtain ⟨hne, hj⟩ := Finset.mem_erase.mp hj
    have hj := Finset.mem_range.mp hj
    rw [hinode _ (by omega), if_neg (by omega), (hother j _ (List.getElem?_eq_getElem hj) hne).2]

/-- **iappend appends.** -/
theorem iappend_spec {f : Nat × List UInt8} {p : List UInt8} (h : Inv s Γ) (hf : Γ[i]? = some f)
    (hmax : (f.2 ++ p).length ≤ MAXFILE * BSIZE) (hroom : nmeta + total (appended Γ i p) ≤ FSSIZE) :
    (iappend (i + 1) p).Returns s fun _ s' => Inv s' (appended Γ i p) := by
  have hi : i < Γ.length := (List.getElem?_eq_some_iff.mp hf).1
  have hcount := h.count
  have hib := IBLOCK_lt (i := i + 1) (by omega)
  have hns : sb.IBLOCK (i + 1) < s.nsect := by
    have h1 := h.lo
    have h2 := h.hi
    rw [h.nsect]
    omega
  have htot := total_appended (p := p) hf
  have hfields := h.fields i f hf
  have hsize : (sb.inode s.sect (i + 1)).size = f.2.length := by rw [hfields]
  rw [iappend]
  refine .step (rinode_eq hns) ?_
  rw [hsize]
  refine .bind (iappendLoop_spec (h.filed hf) le_rfl hmax (by rw [h.freeblock]; omega)) ?_
  rintro ⟨d, off⟩ s₁ ⟨hfiled, hoff, hd, hothers, hfree⟩
  dsimp only at hfiled hoff hd ⊢
  subst hoff
  have hlt : (f.2 ++ p).length < 2 ^ 32 := hmax.trans_lt (by decide)
  have hns₁ : sb.IBLOCK (i + 1) < s₁.nsect := by rwa [hfiled.beside.nsect, ← h.nsect]
  have hfiled' : Filed s₁ { d with size := (f.2 ++ p).length } (f.2 ++ p) (othersOf s Γ i) := by
    have hb := hfiled.beside
    have hrefs : ({ d with size := (f.2 ++ p).length } : Dinode).refs s₁.sect = d.refs s₁.sect := Dinode.refs_of_addrs rfl
    exact ⟨⟨hb.nsect, hb.lo, hb.hi, hb.zero, ⟨{ hb.mapped.wf with size := hlt }, hb.mapped.addr, hb.mapped.indirect⟩,
      hrefs ▸ hb.refs⟩, hfiled.byte⟩
  refine ⟨_, _, winode_eq hns₁, h.written hf hmax hfiled' ?_ hothers ?_⟩
  · rw [hd, hfields]
  · rw [h.freeblock] at hfree
    omega

/-- ialloc adds an empty file. -/
theorem ialloc_spec (type : Nat) (h : Inv s Γ) (hn : Γ.length + 1 < NINODES) (ht : type < 2 ^ 16) :
    (ialloc type).Returns s fun r s' => r = Γ.length + 1 ∧ Inv s' (Γ ++ [(type, [])]) := by
  have hlo := h.lo
  have hhi := h.hi
  have hib := IBLOCK_lt hn
  have hnlog : 2 ≤ 2 + nlog := Nat.le_add_right _ _
  have hwf : ({ type, nlink := 1 } : Dinode).Wf := by
    refine ⟨ht, ?_, ?_, ?_, ?_, ?_, ?_⟩ <;> simp
  have hempty (img : Nat → Block) : Holds img { type, nlink := 1 } [] := by
    have h0 : blocksOf ([] : List UInt8).length = 0 := by decide
    constructor
    · rw [h0]
      refine ⟨hwf, fun k _ => ?_, iff_of_false (not_not.mpr rfl) (Nat.not_lt_zero _)⟩
      rw [Dinode.addr_empty fun _ => rfl]
      exact iff_of_false (not_not.mpr rfl) (Nat.not_lt_zero _)
    · intro j hj
      rw [h0, zero_mul] at hj
      exact absurd hj (Nat.not_lt_zero _)
  rw [ialloc]
  refine .get (.modify ?_)
  have hns : sb.IBLOCK (Γ.length + 1) < s.nsect := by
    rw [h.nsect]
    omega
  rw [h.freeinode]
  refine .step (winode_eq hns) (.pure ⟨rfl, ?_⟩)
  generalize hs₁ : ({ s with freeinode := Γ.length + 1 + 1 } : Image) = s₁
  have hsect : s₁.sect = s.sect := by rw [← hs₁]
  have hinode (j : Nat) : sb.inode (s₁.putInode (Γ.length + 1) { type, nlink := 1 }).sect j =
      if j = Γ.length + 1 then { type, nlink := 1 } else sb.inode s.sect j := by
    rw [inode_putInode hwf, hsect]
  have hsame (b : Nat) (hb : b < 2 + nlog ∨ nmeta ≤ b) :
      (s₁.putInode (Γ.length + 1) { type, nlink := 1 }).sect b = s.sect b := by
    rw [sect_putInode (by omega), hsect]
  have hold (j : Nat) (g : Nat × List UInt8) (hg : Γ[j]? = some g) :=
    Holds.congr (h.holds j g hg) (blocksOf_le (h.sizes g (List.mem_of_getElem? hg))) fun b hb =>
      hsame b (.inr ((h.filed hg).beside.mem hb).1)
  have hget (j : Nat) (g : Nat × List UInt8) (hg : (Γ ++ [(type, [])])[j]? = some g) :
      j = Γ.length ∧ g = (type, []) ∨ j < Γ.length ∧ Γ[j]? = some g := by
    rw [List.getElem?_append] at hg
    split at hg
    · next hj => exact .inr ⟨hj, hg⟩
    · next hj =>
      obtain ⟨hlt, he⟩ := List.getElem?_eq_some_iff.mp hg
      simp only [List.length_singleton, Nat.lt_one_iff] at hlt
      simp only [hlt, List.getElem_cons_zero] at he
      exact .inl ⟨by omega, he.symm⟩
  have hlen : (Γ ++ [(type, ([] : List UInt8))]).length = Γ.length + 1 := by simp
  have htot : total (Γ ++ [(type, [])]) = total Γ := by
    simp [total, show fileBlocks 0 = 0 by decide]
  have hfb : (s₁.putInode (Γ.length + 1) { type, nlink := 1 }).freeblock = s.freeblock := by rw [← hs₁]; rfl
  constructor
  · rw [Image.putInode, nsect_put (by rw [← hs₁]; exact hns), ← hs₁]
    exact h.nsect
  · rw [hlen, ← hs₁]
    rfl
  · rwa [hlen]
  · intro g hg
    obtain ⟨j, hj⟩ := List.getElem?_of_mem hg
    obtain ⟨-, rfl⟩ | ⟨-, hg'⟩ := hget j g hj
    · exact Nat.zero_le _
    · exact h.sizes g (List.mem_of_getElem? hg')
  · rw [hfb, htot, h.freeblock]
  · rw [hfb]
    exact hhi
  · rw [hsame 1 (by omega), h.super]
  · intro b h2 hb
    rw [hsame b (.inl hb), h.log b h2 hb]
  · intro b hb hlt
    rw [hfb] at hb
    rw [hsame b (by omega), h.zero b hb hlt]
  · intro j g hg
    rw [hinode]
    obtain ⟨rfl, rfl⟩ | ⟨hj, hg'⟩ := hget j g hg
    · rw [if_pos rfl]
      rfl
    · rw [if_neg (by omega)]
      exact h.fields j g hg'
  · intro j g hg
    rw [hinode]
    obtain ⟨rfl, rfl⟩ | ⟨hj, hg'⟩ := hget j g hg
    · rw [if_pos rfl]
      exact hempty _
    · rw [if_neg (by omega)]
      exact (hold j g hg').1
  · intro j hj hu
    rw [hlen] at hu
    rw [hinode, if_neg (by omega), h.unused j hj (by omega)]
  · rw [hlen, Finset.sum_range_succ, hinode, if_pos rfl, Dinode.refs_empty fun _ => rfl, add_zero,
      handedOut_congr hfb, ← h.refs]
    refine Finset.sum_congr rfl fun j hj => ?_
    have hj := Finset.mem_range.mp hj
    rw [hinode, if_neg (by omega), (hold j _ (List.getElem?_eq_getElem hj)).2]

/-! ## The files of the command line -/

theorem appended_nil : appended Γ i [] = Γ := by
  have hid : (fun f : Nat × List UInt8 => (f.1, f.2 ++ [])) = id := by
    funext f
    rw [List.append_nil]
    rfl
  rw [appended, hid, List.modify_id]

theorem appended_appended {p q : List UInt8} : appended (appended Γ i p) i q = appended Γ i (p ++ q) := by
  refine List.ext_getElem? fun j => ?_
  simp only [getElem?_appended]
  split
  · rw [Option.map_map]
    simp only [Function.comp_def, List.append_assoc]
  · rfl

/-- The reads of a file, appended one after the other. -/
theorem reads_spec {f : Nat × List UInt8} (rs : List (List UInt8)) (h : Inv s Γ) (hf : Γ[i]? = some f)
    (hmax : (f.2 ++ rs.flatten).length ≤ MAXFILE * BSIZE) (hroom : nmeta + total (appended Γ i rs.flatten) ≤ FSSIZE) :
    (rs.forM (iappend (i + 1))).Returns s fun _ s' => Inv s' (appended Γ i rs.flatten) := by
  induction rs generalizing s Γ f with
  | nil =>
    rw [List.flatten_nil, appended_nil]
    exact .pure h
  | cons r rs ih =>
    rw [List.flatten_cons] at hmax hroom ⊢
    rw [← appended_appended] at hroom ⊢
    have hg : (appended Γ i r)[i]? = some (f.1, f.2 ++ r) := by
      rw [getElem?_appended, if_pos rfl, hf]
      rfl
    have hle : total (appended Γ i r) ≤ total (appended (appended Γ i r) i rs.flatten) := by
      have h1 := total_appended (p := rs.flatten) hg
      dsimp only at h1
      have h2 : fileBlocks (f.2 ++ r).length ≤ fileBlocks (f.2 ++ r ++ rs.flatten).length :=
        fileBlocks_mono (by simp)
      omega
    have hr : (f.2 ++ r).length ≤ MAXFILE * BSIZE := by
      simp only [List.length_append] at hmax ⊢
      omega
    exact .bind (iappend_spec h hf hr (by omega)) fun _ s₁ h₁ => ih h₁ hg (by rwa [List.append_assoc]) hroom

/-- A directory entry is 16 bytes. -/
theorem length_dirent {inum : Nat} {name : List UInt8} : (dirent inum name).length = 16 := by
  simp [dirent, DIRSIZ]

/-- The directory entries of the files, from inode `i` on. -/
def entries : Nat → List Input → List UInt8
  | _, [] => []
  | i, f :: fs => dirent i (shortname f.argv) ++ entries (i + 1) fs

theorem length_entries {files : List Input} : (entries i files).length = 16 * files.length := by
  induction files generalizing i with
  | nil => rfl
  | cons f fs ih =>
    rw [entries, List.length_append, length_dirent, ih, List.length_cons]
    omega

/-- The root directory, before its size is rounded up. -/
def rootBytes (files : List Input) : List UInt8 := dirent 1 [dot] ++ dirent 1 [dot, dot] ++ entries 2 files

theorem length_rootBytes {files : List Input} : (rootBytes files).length = 16 * (files.length + 2) := by
  rw [rootBytes, List.length_append, List.length_append, length_dirent, length_dirent, length_entries]
  omega

theorem modify_concat {α : Type} (l : List α) (a : α) (g : α → α) : (l ++ [a]).modify l.length g = l ++ [g a] := by
  induction l with
  | nil => rfl
  | cons b l ih => rw [List.cons_append, List.length_cons, List.modify_succ_cons, ih, List.cons_append]

theorem addFile_spec {f : Input} {R : List UInt8} {Φ : List (Nat × List UInt8)} (h : Inv s ((T_DIR, R) :: Φ))
    (hn : Φ.length + 2 < NINODES) (hslash : slash ∉ strip f.argv) (hR : R.length + 16 ≤ MAXFILE * BSIZE)
    (hf : f.bytes.length ≤ MAXFILE * BSIZE)
    (hroom : nmeta + total ((T_DIR, R ++ dirent (Φ.length + 2) (shortname f.argv)) :: (Φ ++ [(T_FILE, f.bytes)])) ≤
      FSSIZE) :
    (addFile 1 f).Returns s fun _ s' =>
      Inv s' ((T_DIR, R ++ dirent (Φ.length + 2) (shortname f.argv)) :: (Φ ++ [(T_FILE, f.bytes)])) := by
  have h0 : fileBlocks 0 = 0 := by decide
  have hroot {Δ : List (Nat × List UInt8)} {p : List UInt8} :
      appended ((T_DIR, R) :: Δ) 0 p = (T_DIR, R ++ p) :: Δ := List.modify_zero_cons ..
  have hlast : appended ((T_DIR, R ++ dirent (Φ.length + 2) (shortname f.argv)) :: (Φ ++ [(T_FILE, [])])) (Φ.length + 1)
      f.bytes = (T_DIR, R ++ dirent (Φ.length + 2) (shortname f.argv)) :: (Φ ++ [(T_FILE, f.bytes)]) := by
    rw [appended, List.modify_succ_cons, modify_concat]
    rfl
  rw [addFile]
  refine .step (assert_ok hslash) ?_
  refine .bind (ialloc_spec T_FILE h (by simpa using hn) (by decide)) ?_
  rintro inum s₁ ⟨rfl, h₁⟩
  rw [List.length_cons, List.cons_append] at *
  refine .bind (iappend_spec (i := 0) (p := dirent (Φ.length + 2) (shortname f.argv)) h₁ rfl ?_ ?_) ?_
  · rw [List.length_append, length_dirent]
    exact hR
  · rw [hroot]
    simp only [total_cons, total_append, List.length_nil, h0] at hroom ⊢
    simp only [total, List.map_nil, List.sum_nil] at hroom ⊢
    omega
  · intro _ s₂ h₂
    rw [hroot] at h₂
    have hr := reads_spec (i := Φ.length + 1) (f := (T_FILE, [])) f.reads h₂ (by simp) hf
    rw [← Input.bytes, hlast] at hr
    exact hr hroom

theorem files_spec {files : List Input} {R : List UInt8} {Φ : List (Nat × List UInt8)} (h : Inv s ((T_DIR, R) :: Φ))
    (hn : Φ.length + files.length + 1 < NINODES) (hslash : ∀ f ∈ files, slash ∉ strip f.argv)
    (hR : R.length + 16 * files.length ≤ MAXFILE * BSIZE) (hf : ∀ f ∈ files, f.bytes.length ≤ MAXFILE * BSIZE)
    (hroom : nmeta + total ((T_DIR, R ++ entries (Φ.length + 2) files) ::
      (Φ ++ files.map fun f => (T_FILE, f.bytes))) ≤ FSSIZE) :
    (files.forM (addFile 1)).Returns s fun _ s' =>
      Inv s' ((T_DIR, R ++ entries (Φ.length + 2) files) :: (Φ ++ files.map fun f => (T_FILE, f.bytes))) := by
  induction files generalizing s R Φ with
  | nil =>
    rw [entries, List.append_nil, List.map_nil, List.append_nil]
    exact .pure h
  | cons f fs ih =>
    have hassoc : Φ ++ (f :: fs).map (fun f => (T_FILE, f.bytes)) =
        (Φ ++ [(T_FILE, f.bytes)]) ++ fs.map fun f => (T_FILE, f.bytes) := by simp
    have hlen : (Φ ++ [(T_FILE, f.bytes)]).length = Φ.length + 1 := by simp
    rw [List.length_cons] at hn hR
    rw [hassoc, entries, ← List.append_assoc] at hroom ⊢
    refine .bind (addFile_spec h (by omega) (hslash f List.mem_cons_self) (by omega) (hf f List.mem_cons_self) ?_) ?_
    · have hle : fileBlocks (R ++ dirent (Φ.length + 2) (shortname f.argv)).length ≤
          fileBlocks (R ++ dirent (Φ.length + 2) (shortname f.argv) ++ entries (Φ.length + 2 + 1) fs).length :=
        fileBlocks_mono (by simp)
      rw [total_cons] at hroom ⊢
      rw [total_append (Γ := Φ ++ [(T_FILE, f.bytes)])] at hroom
      dsimp only at hroom ⊢
      omega
    · intro _ s₁ h₁
      have := ih h₁ (by rw [hlen]; omega) (fun g hg => hslash g (List.mem_cons_of_mem f hg))
        (by rw [List.length_append, length_dirent]; omega) (fun g hg => hf g (List.mem_cons_of_mem f hg))
      rw [hlen] at this
      exact this hroom

/-! ## The whole program -/

/-- The image after its sectors were written. -/
def zeroed (n : Nat) : Image := { nsect := n, freeblock := nmeta }

theorem zeroed_eq (n : Nat) :
    (List.range n).forM (fun i => wsect i (Buffer.fill 0)) (zeroed 0) = .ok ((), zeroed n) := by
  induction n with
  | zero => rfl
  | succ n ih =>
    rw [List.forM_eq_forM] at ih ⊢
    rw [List.range_succ, List.forM_append, Code.bind_ok ih]
    have hw : wsect n (Buffer.fill 0) (zeroed n) = .ok ((), zeroed (n + 1)) := by
      have hsect : Function.update (zeroed n).sect n (Buffer.fill 0) = (zeroed n).sect := Function.update_eq_self n _
      have hmax : max (zeroed n).nsect (n + 1) = n + 1 := max_eq_right (Nat.le_succ n)
      rw [wsect_eq, Image.put, hsect, hmax]
      rfl
    rw [List.forM_cons, List.forM_nil, Code.bind_ok hw]
    rfl

/-- The image with nothing but the super block. -/
theorem inv_start : Inv ((zeroed FSSIZE).put 1 sb.encode) [] := by
  have hnlog : nlog = 30 := rfl
  have hnmeta : nmeta = 46 := by decide
  have hsect (b : Nat) (hb : b ≠ 1) : ((zeroed FSSIZE).put 1 sb.encode).sect b = Buffer.fill 0 :=
    Function.update_of_ne hb _ _
  constructor
  · exact nsect_put (s := zeroed FSSIZE) (by decide)
  · rfl
  · change 0 < NINODES
    decide
  · intro f hf
    cases hf
  · rfl
  · change nmeta ≤ FSSIZE
    decide
  · exact sect_put.trans (if_pos rfl)
  · intro b h2 _
    exact hsect b (by omega)
  · intro b hb _
    have hb : nmeta ≤ b := hb
    exact hsect b (by omega)
  · intro i f hf
    cases hf
  · intro i f hf
    cases hf
  · intro i hi _
    have := IBLOCK_lt hi
    rw [Superblock.inode, hsect _ (by omega), Buffer.part_fill (inode_slot i), Dinode.decode_fill]
  · rw [List.length_nil, Finset.sum_range_zero, handedOut]
    exact (congrArg Finset.val (Finset.Ico_self nmeta)).symm

/-- The files of the finished image. -/
def filesOf (files : List Input) : List (Nat × List UInt8) :=
  (T_DIR, rootBytes files) :: files.map fun f => (T_FILE, f.bytes)

/-- The input files fit in the image. -/
structure Fits (files : List Input) : Prop where
  count : files.length ≤ NINODES - 2
  size : ∀ f ∈ files, f.bytes.length ≤ MAXFILE * BSIZE
  room : nmeta + fileBlocks (16 * (files.length + 2)) + (files.map fun f => fileBlocks f.bytes.length).sum ≤ FSSIZE
  /-- Otherwise mkfs stops at its assert. -/
  name : ∀ f ∈ files, slash ∉ strip f.argv

/-- The root inode with its size fixed. -/
def fixRoot (d : Dinode) : Dinode := { d with size := (d.size / BSIZE + 1) * BSIZE }

/-- **mkfs returns**, and what it leaves is the files' image with the root's size fixed and the bitmap written. -/
theorem main_spec {files : List Input} (h : Fits files) : (main files).Returns {} fun _ t => ∃ s, Inv s (filesOf files) ∧
    t = (s.putInode 1 (fixRoot (sb.inode s.sect 1))).put sb.bmapstart (bitmap s.freeblock) := by
  have hcount := h.count
  have hN : NINODES = 200 := rfl
  have hMB : MAXFILE * BSIZE = 274432 := by decide
  have hroom : nmeta + total (filesOf files) ≤ FSSIZE := by
    rw [filesOf, total_cons, length_rootBytes, total, List.map_map]
    exact (Nat.add_assoc _ _ _).symm.trans_le h.room
  have hroot {R p : List UInt8} : appended [(T_DIR, R)] 0 p = [(T_DIR, R ++ p)] := rfl
  have hsmall (R : List UInt8) (hn : R.length ≤ 16 * (files.length + 2)) : nmeta + total [(T_DIR, R)] ≤ FSSIZE := by
    have h1 := fileBlocks_mono hn
    have h2 := h.room
    rw [total_cons, show total [] = 0 from rfl]
    dsimp only
    omega
  rw [main]
  refine .modify (.step (zeroed_eq FSSIZE) (.step wsect_eq ?_))
  refine .bind (ialloc_spec T_DIR inv_start (by decide) (by decide)) ?_
  rintro rootino s₁ ⟨rfl, h₁⟩
  refine .step (assert_ok (by rfl)) ?_
  refine .bind (iappend_spec (i := 0) (p := dirent 1 [dot]) h₁ rfl ?_ ?_) fun _ s₂ h₂ => ?_
  · decide
  · exact hsmall _ (by rw [List.nil_append, length_dirent]; omega)
  rw [List.nil_append, hroot, List.nil_append] at h₂
  refine .bind (iappend_spec (i := 0) (p := dirent 1 [dot, dot]) h₂ rfl ?_ ?_) fun _ s₃ h₃ => ?_
  · decide
  · exact hsmall _ (by rw [List.length_append, length_dirent, length_dirent]; omega)
  rw [hroot] at h₃
  refine .bind (files_spec h₃ ?_ h.name ?_ h.size hroom) fun _ s₄ h₄ => ?_
  · simp only [List.length_nil]
    omega
  · rw [List.length_append, length_dirent, length_dirent]
    omega
  have h₄ : Inv s₄ (filesOf files) := h₄
  have hns : sb.IBLOCK 1 < s₄.nsect := by
    rw [h₄.nsect]
    decide
  refine .step (rinode_eq hns) (.step (winode_eq hns) (.get ?_))
  rw [balloc]
  have hused : (s₄.putInode 1 (fixRoot (sb.inode s₄.sect 1))).freeblock < BSIZE * 8 := lt_of_le_of_lt h₄.hi (by decide)
  exact .step (assert_ok hused) ⟨_, _, wsect_eq, s₄, h₄, rfl⟩

/-! ## The finished image -/

theorem bit_bitmap {n j : Nat} (hj : j < BSIZE * 8) : (bitmap n).bit j = decide (j < n) := by
  induction n with
  | zero => simp [bitmap, Buffer.bit, Buffer.bytes_fill (show j / 8 < BSIZE by omega)]
  | succ n ih =>
    rw [bitmap, Buffer.bit_setBit (by omega), ih]
    rw [Bool.eq_iff_iff, Bool.or_eq_true, decide_eq_true_eq, decide_eq_true_eq, decide_eq_true_eq]
    omega

/-- The image mkfs leaves for `files`. -/
structure Made (files : List Input) (t : Image) : Prop where
  lo : nmeta ≤ t.freeblock
  hi : t.freeblock ≤ FSSIZE
  super : t.sect 1 = sb.encode
  log : ∀ b, 2 ≤ b → b < 2 + nlog → t.sect b = Buffer.fill 0
  bitmap : t.sect sb.bmapstart = bitmap t.freeblock
  root : ∃ d, sb.inode t.sect 1 = fixRoot d ∧
    d = { type := T_DIR, nlink := 1, size := (rootBytes files).length, addrs := d.addrs } ∧
    Holds t.sect (fixRoot d) (rootBytes files)
  file : ∀ i f, files[i]? = some f → sb.inode t.sect (i + 2) =
      { type := T_FILE, nlink := 1, size := f.bytes.length, addrs := (sb.inode t.sect (i + 2)).addrs } ∧
    Holds t.sect (sb.inode t.sect (i + 2)) f.bytes
  unused : ∀ i < NINODES, i = 0 ∨ files.length + 1 < i → sb.inode t.sect i = {}
  refs : sb.refs t.sect = handedOut t

theorem made_of_inv {files : List Input} {t : Image} (h : Inv s (filesOf files))
    (ht : t = (s.putInode 1 (fixRoot (sb.inode s.sect 1))).put sb.bmapstart (bitmap s.freeblock)) : Made files t := by
  have hnmeta : nmeta = 46 := by decide
  have hnlog : nlog = 30 := rfl
  have hbmap : sb.bmapstart = 45 := by decide
  have hcount := h.count
  have hlen : (filesOf files).length = files.length + 1 := by simp [filesOf]
  have hfix {d : Dinode} {img : Nat → Block} : (fixRoot d).refs img = d.refs img :=
    Dinode.refs_of_addrs rfl
  have hroot := h.fields 0 _ rfl
  have hholds := h.holds 0 _ rfl
  have hwf : (fixRoot (sb.inode s.sect 1)).Wf := by
    refine { hholds.mapped.wf with size := ?_ }
    have hsz := h.sizes _ List.mem_cons_self
    have hMB : MAXFILE * BSIZE = 274432 := by decide
    rw [fixRoot, hroot]
    dsimp only at hsz ⊢
    have := Nat.div_le_self (rootBytes files).length BSIZE
    rw [show BSIZE = 1024 from rfl] at *
    omega
  have hinode (j : Nat) (hj : j < NINODES) :
      sb.inode t.sect j = if j = 1 then fixRoot (sb.inode s.sect 1) else sb.inode s.sect j := by
    have hb := IBLOCK_lt hj
    rw [← inode_putInode hwf, ht]
    exact Superblock.inode_congr (Function.update_of_ne (IBLOCK_ne hj) _ _)
  have hsame (b : Nat) (hb : b < 2 + nlog ∨ nmeta ≤ b) : t.sect b = s.sect b := by
    have hib := IBLOCK_lt (i := 1) (by decide)
    rw [ht, sect_put, if_neg (by omega), sect_putInode (by omega)]
  have hfb : t.freeblock = s.freeblock := by rw [ht]; rfl
  have hheld (i : Nat) (f : Nat × List UInt8) (hf : (filesOf files)[i]? = some f) :=
    Holds.congr (h.holds i f hf) (blocksOf_le (h.sizes f (List.mem_of_getElem? hf))) fun b hb =>
      hsame b (.inr ((h.filed hf).beside.mem hb).1)
  have hfile (i : Nat) (f : Input) (hf : files[i]? = some f) : (filesOf files)[i + 1]? = some (T_FILE, f.bytes) := by
    rw [filesOf, List.getElem?_cons_succ, List.getElem?_map, hf]
    rfl
  have hlt (i : Nat) (f : Input) (hf : files[i]? = some f) : i + 2 < NINODES := by
    have := (List.getElem?_eq_some_iff.mp hf).1
    omega
  constructor
  · rw [hfb]
    exact h.lo
  · rw [hfb]
    exact h.hi
  · rw [hsame 1 (by omega), h.super]
  · intro b h2 hb
    rw [hsame b (.inl hb), h.log b h2 hb]
  · rw [ht, sect_put, if_pos rfl]
    rfl
  · refine ⟨_, (hinode 1 (by decide)).trans (if_pos rfl), hroot, ⟨hwf, ?_, ?_⟩, ?_⟩
    · exact (hheld 0 _ rfl).1.mapped.addr
    · exact hholds.mapped.indirect
    · exact (hheld 0 _ rfl).1.byte
  · intro i f hf
    rw [hinode _ (hlt i f hf), if_neg (by omega)]
    exact ⟨h.fields (i + 1) _ (hfile i f hf), (hheld _ _ (hfile i f hf)).1⟩
  · intro i hi hu
    rw [hinode i hi, if_neg (by omega), h.unused i hi (by omega)]
  · have htype (f : Nat × List UInt8) (hf : f ∈ filesOf files) : f.1 ≠ 0 := by
      simp only [filesOf, List.mem_cons, List.mem_map] at hf
      obtain rfl | ⟨g, -, rfl⟩ := hf
      · change T_DIR ≠ 0
        decide
      · change T_FILE ≠ 0
        decide
    have hzero (i : Nat) (hi : i < NINODES) (hu : i = 0 ∨ (filesOf files).length < i) :
        (if (sb.inode t.sect i).type = 0 then 0 else (sb.inode t.sect i).refs t.sect) = 0 := by
      have hne : i ≠ 1 := by omega
      have he : sb.inode t.sect i = {} := by rw [hinode i hi, if_neg hne, h.unused i hi hu]
      rw [he, if_pos rfl]
    rw [Superblock.refs, show sb.ninodes = 199 + 1 from rfl, Finset.sum_range_succ', hzero 0 (by decide) (.inl rfl),
      add_zero, handedOut_congr hfb, ← h.refs]
    refine (Finset.sum_subset_zero_on_sdiff (Finset.range_subset_range.mpr ?_) (fun i hi => ?_) fun i hi => ?_).symm
    · simp only [show NINODES = 200 from rfl] at hcount
      omega
    · simp only [Finset.mem_sdiff, Finset.mem_range] at hi
      exact hzero (i + 1) (by simp only [show NINODES = 200 from rfl]; omega) (by omega)
    · have hi := Finset.mem_range.mp hi
      have hf := List.getElem?_eq_getElem hi
      have hty : (sb.inode t.sect (i + 1)).type ≠ 0 := by
        rw [hinode _ (by omega)]
        split
        · rw [fixRoot, hroot]
          exact htype _ List.mem_cons_self
        · rw [h.fields i _ hf]
          exact htype _ (List.mem_of_getElem? hf)
      rw [if_neg hty, ← (hheld i _ hf).2, hinode _ (by omega)]
      split
      · next he => rw [hfix, he]
      · rfl

theorem main_used {files : List Input} (h : Fits files) : (main files).Returns {} fun _ t => Made files t ∧
    t.freeblock = nmeta + total (filesOf files) :=
  (main_spec h).mono fun _ _ ⟨_, hs, ht⟩ => ⟨made_of_inv hs ht, ht ▸ hs.freeblock⟩

theorem main_made {files : List Input} (h : Fits files) : (main files).Returns {} fun _ t => Made files t :=
  (main_used h).mono fun _ _ ht => ht.1

/-- What the kernel assumes of an image: every block handed out is referred to once, the bitmap marks the blocks below
`freeblock`, the files have their sizes, and no inode has a hole. -/
structure Consistent (files : List Input) (t : Image) : Prop where
  once : ∀ b, nmeta ≤ b → b < t.freeblock → (sb.refs t.sect).count b = 1
  bitmap : ∀ b < BSIZE * 8, Buffer.bit (t.sect sb.bmapstart) b = true ↔ b < t.freeblock
  sizes : ∀ i f, files[i]? = some f → (sb.inode t.sect (i + 2)).type = T_FILE ∧
    (sb.inode t.sect (i + 2)).size = f.bytes.length
  mapped : ∀ i < NINODES, (sb.inode t.sect i).type ≠ 0 →
    ∀ k < blocksOf (sb.inode t.sect i).size, (sb.inode t.sect i).addr t.sect k ≠ 0

/-- The root directory has a hole just when its entries fill their blocks. -/
theorem Made.root_mapped {files : List Input} {t : Image} (h : Made files t) (hn : files.length ≤ NINODES - 2) :
    (∀ k < blocksOf (sb.inode t.sect 1).size, (sb.inode t.sect 1).addr t.sect k ≠ 0) ↔ (files.length + 2) % 64 ≠ 0 := by
  obtain ⟨d, hd, hfields, hholds⟩ := h.root
  have hB : BSIZE = 1024 := rfl
  have hM : MAXFILE = 268 := rfl
  have hN : NINODES = 200 := rfl
  have hsize : blocksOf (sb.inode t.sect 1).size = 16 * (files.length + 2) / BSIZE + 1 := by
    rw [hd, fixRoot, hfields, length_rootBytes]
    simp only [blocksOf, hB]
    omega
  have haddr (k : Nat) (hk : k < MAXFILE) :
      (sb.inode t.sect 1).addr t.sect k ≠ 0 ↔ k < (16 * (files.length + 2) + 1023) / 1024 := by
    rw [hd, hholds.mapped.addr k hk, length_rootBytes]
    rfl
  rw [hsize, hB]
  constructor
  · intro hall h64
    have hlast := (haddr (16 * (files.length + 2) / 1024) (by omega)).mp (hall _ (by omega))
    omega
  · intro h64 k hk
    exact (haddr k (by omega)).mpr (by omega)

theorem Made.consistent_iff {files : List Input} {t : Image} (h : Made files t) (hfit : Fits files) :
    Consistent files t ↔ (files.length + 2) % 64 ≠ 0 := by
  have hn := hfit.count
  have hN : NINODES = 200 := rfl
  rw [← h.root_mapped hn]
  constructor
  · intro hc
    refine hc.mapped 1 (by decide) ?_
    obtain ⟨d, hd, hfields, -⟩ := h.root
    rw [hd, fixRoot, hfields]
    change T_DIR ≠ 0
    decide
  · intro hroot
    constructor
    · intro b hlo hlt
      rw [h.refs]
      exact Multiset.count_eq_one_of_mem (Finset.nodup _) (mem_handedOut.mpr ⟨hlo, hlt⟩)
    · intro b hb
      rw [h.bitmap, bit_bitmap hb, decide_eq_true_eq]
    · intro i f hf
      rw [(h.file i f hf).1]
      exact ⟨rfl, rfl⟩
    · intro i hi hty
      by_cases h1 : i = 1
      · subst h1
        exact hroot
      · -- a file's blocks are those of its size
        have hu : ¬ (i = 0 ∨ files.length + 1 < i) := fun hu => hty (by rw [h.unused i hi hu])
        obtain ⟨j, rfl⟩ : ∃ j, i = j + 2 := ⟨i - 2, by omega⟩
        have hj : files[j]? = some files[j] := List.getElem?_eq_getElem (by omega)
        obtain ⟨hfields, hholds⟩ := h.file j _ hj
        have hsz := blocksOf_le (hfit.size _ (List.mem_of_getElem? hj))
        have hsize : (sb.inode t.sect (j + 2)).size = files[j].bytes.length := by rw [hfields]
        rw [hsize]
        exact fun k hk => (hholds.mapped.addr k (by omega)).mpr hk

/-- **mkfs builds a consistent image** unless the root directory's entries fill their blocks. -/
theorem image_consistent {files : List Input} (h : Fits files) :
    (main files).Returns {} fun _ t => Consistent files t ↔ (files.length + 2) % 64 ≠ 0 :=
  (main_made h).mono fun _ _ ht => ht.consistent_iff h

/-- user/_hi, read in two parts. -/
def hello : Input := ⟨userDir ++ [underscore, 104, 105], [[104, 101, 108], [108, 111]], by decide⟩

theorem image_consistent_hello : ∃ t, main [hello] {} = .ok ((), t) ∧ Consistent [hello] t := by
  have hfit : Fits [hello] := ⟨by decide, by decide, by decide, by decide⟩
  obtain ⟨_, t, ht, hc⟩ := image_consistent hfit
  exact ⟨t, ht, hc.mpr (by decide)⟩

/-- 62 empty files, f00 to f61. -/
def sixtyTwo : List Input :=
  (List.range 62).map fun i => ⟨[102, UInt8.ofNat (48 + i / 10), UInt8.ofNat (48 + i % 10)], [], fun _ h => nomatch h⟩

/-- **With 62 files the root has a hole**: its 64 entries fill one block, and its size is two. -/
theorem root_hole : Fits sixtyTwo ∧ ∃ t, main sixtyTwo {} = .ok ((), t) ∧ (sb.inode t.sect 1).size = 2 * BSIZE ∧
    (sb.inode t.sect 1).addr t.sect 0 ≠ 0 ∧ (sb.inode t.sect 1).addr t.sect 1 = 0 ∧ ¬ Consistent sixtyTwo t := by
  have hfit : Fits sixtyTwo := ⟨by decide, by decide, by decide, by decide⟩
  obtain ⟨_, t, ht, hm⟩ := main_made hfit
  obtain ⟨d, hd, hfields, hholds⟩ := hm.root
  have hlen : (rootBytes sixtyTwo).length = 1024 := length_rootBytes
  have hblocks : blocksOf (rootBytes sixtyTwo).length = 1 := by rw [hlen]; decide
  have haddr := hholds.mapped.addr
  rw [hblocks, ← hd] at haddr
  refine ⟨hfit, t, ht, ?_, (haddr 0 (by decide)).mpr (by decide), ?_, fun hc => ?_⟩
  · rw [hd, fixRoot, hfields, hlen]
    change (1024 / BSIZE + 1) * BSIZE = 2 * BSIZE
    decide
  · by_contra hne
    exact absurd ((haddr 1 (by decide)).mp hne) (by decide)
  · exact (hm.consistent_iff hfit).mp hc (by decide)

end Xv6.Mkfs
