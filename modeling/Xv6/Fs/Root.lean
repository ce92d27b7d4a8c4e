/-
The root directory of an image mkfs made, as the kernel reads it: ".", ".." and the files
in order, each under the part of its name that counts, and empty slots up to the end of
the last block (`Booted.slots_root`).
-/
import Xv6.Fs.Dir

namespace Xv6.Fs

open Lib Mkfs

/-! ## Entries -/

theorem strnEq_of_char {p q : List UInt8} : ∀ n i, (∀ j, i ≤ j → j < i + n → char p j = char q j) → strnEq p q n i = true
  | 0, _, _ => rfl
  | n + 1, i, h => by
    have hi := h i le_rfl (by omega)
    rw [strnEq]
    split
    · exact strnEq_of_char n (i + 1) fun j hj hlt => h j (by omega) (by omega)
    · simp [hi]

/-- mkfs fills a name with zeros. -/
theorem key_padded (name : List UInt8) : key ((name ++ List.replicate DIRSIZ 0).take DIRSIZ) = key name := by
  refine namecmp_iff.mp (strnEq_of_char _ _ fun j _ hj => ?_)
  unfold char
  simp only [List.getD_eq_getElem?_getD, List.getElem?_take, List.getElem?_append, List.getElem?_replicate]
  split_ifs <;> simp_all

theorem slotOf_mkfs {i : Nat} {name : List UInt8} (h0 : 0 < i) (hlt : i < 65536) :
    slotOf (Mkfs.dirent i name) = some (key name, i) := by
  have hinum : direntInum (Mkfs.dirent i name) = i := by
    simp only [direntInum, Mkfs.dirent, List.cons_append, List.nil_append, List.getD_cons_zero, List.getD_cons_succ,
      UInt8.toNat_ofNat']
    omega
  have hname : direntName (Mkfs.dirent i name) = (name ++ List.replicate DIRSIZ 0).take DIRSIZ := rfl
  rw [slotOf, hinum, if_neg (by omega), hname, key_padded]

theorem slots_cons {de c : List UInt8} (hde : de.length = DIRENT) : slots (de ++ c) = slotOf de :: slots c := by
  have hlen : (de ++ c).length / DIRENT = c.length / DIRENT + 1 := by
    rw [List.length_append, hde, Nat.add_comm, Nat.add_div_right _ (by decide)]
  unfold slots
  rw [hlen, List.range_succ_eq_map, List.map_cons, List.map_map, Nat.mul_zero, List.drop_zero]
  congr 1
  · rw [← hde, List.take_left]
  · refine List.map_congr_left fun i _ => ?_
    simp only [Function.comp_apply]
    rw [Nat.mul_succ, Nat.add_comm, ← List.drop_drop, ← hde, List.drop_left]

theorem slots_zeros (n : Nat) : slots (List.replicate (DIRENT * n) 0) = List.replicate n none := by
  induction n with
  | zero => rfl
  | succ n ih =>
    rw [Nat.mul_succ, Nat.add_comm, List.replicate_add, slots_cons (List.length_replicate ..), ih, slotOf_empty]
    rfl

/-! ## The root -/

/-- The files under their names, from inode `i` on. -/
def named : Nat → List Input → List (List UInt8 × Nat)
  | _, [] => []
  | i, f :: fs => (key (shortname f.argv), i) :: named (i + 1) fs

/-- What is in the root directory. -/
def rootNames (files : List Input) : List (List UInt8 × Nat) :=
  ([dot], ROOTINO) :: ([dot, dot], ROOTINO) :: named 2 files

theorem slots_entries {c : List UInt8} : ∀ (files : List Input) (i : Nat), 0 < i → i + files.length ≤ 65536 →
    slots (entries i files ++ c) = (named i files).map some ++ slots c
  | [], _, _, _ => rfl
  | f :: fs, i, h0, hlt => by
    rw [List.length_cons] at hlt
    rw [entries, List.append_assoc, slots_cons Mkfs.length_dirent, slotOf_mkfs h0 (by omega),
      slots_entries fs (i + 1) (by omega) (by omega)]
    rfl

theorem slots_rootBytes {files : List Input} {c : List UInt8} (h : files.length ≤ NINODES) :
    slots (rootBytes files ++ c) = (rootNames files).map some ++ slots c := by
  have hN : NINODES = 200 := rfl
  rw [rootBytes, List.append_assoc, List.append_assoc, slots_cons Mkfs.length_dirent, slots_cons Mkfs.length_dirent,
    slotOf_mkfs (by decide) (by decide), slotOf_mkfs (by decide) (by decide), slots_entries files 2 (by decide) (by omega)]
  rfl

/-- No two names are equal in what counts. -/
theorem distinct_names {l : List (List UInt8 × Nat)} (h : (l.map Prod.fst).Nodup) (n : Nat) :
    Slots.Distinct (l.map some ++ List.replicate n none) := by
  have hget {i : Nat} {k : List UInt8} {v : Nat} (hi : (l.map some ++ List.replicate n none)[i]? = some (some (k, v))) :
      (l.map Prod.fst)[i]? = some k := by
    rw [List.getElem?_append] at hi
    split at hi
    · rw [List.getElem?_map, Option.map_eq_some_iff] at hi
      obtain ⟨e, he, hk⟩ := hi
      cases hk
      rw [List.getElem?_map, he]
      rfl
    · rw [List.getElem?_replicate] at hi
      split at hi <;> cases hi
  intro i j k v w hi hj
  exact (List.getElem?_inj (List.getElem?_eq_some_iff.mp (hget hi)).1 h).mp ((hget hi).trans (hget hj).symm)

variable {files : List Input} {t : Image} {s : State}

theorem type_root (hm : Made files t) : (Mkfs.sb.inode t.sect 1).type = T_DIR := by
  obtain ⟨d, hd, hfields, -⟩ := hm.root
  rw [hd, fixRoot, hfields]

theorem size_root (hm : Made files t) :
    (Mkfs.sb.inode t.sect 1).size = (16 * (files.length + 2) / BSIZE + 1) * BSIZE := by
  obtain ⟨d, hd, hfields, -⟩ := hm.root
  rw [hd, fixRoot, hfields, length_rootBytes]

/-- The bytes of the root directory, up to the end of the last block that mkfs allocated. -/
theorem Booted.root_byte (h : Booted t s) (hm : Made files t) (hfit : Mkfs.Fits files) {p : Nat}
    (hp : p < blocksOf (16 * (files.length + 2)) * BSIZE) :
    (Mkfs.sb.inode s.block 1).addr s.block (p / BSIZE) ≠ 0 ∧
      (Mkfs.sb.inode s.block 1).byte s.block p = (rootBytes files).getD p 0 := by
  obtain ⟨d, hd, -, hholds⟩ := hm.root
  have hcount := hfit.count
  have hN : NINODES = 200 := rfl
  have hM : blocksOf (rootBytes files).length ≤ MAXFILE := by
    rw [length_rootBytes]
    have : MAXFILE = 268 := rfl
    simp only [blocksOf, BSIZE]
    omega
  refine h.held hm (by decide) ?_ hM (hd ▸ hholds) (by rwa [length_rootBytes])
  rw [type_root hm]
  decide

/-- **The root directory**, unless mkfs left a hole in it. -/
theorem Booted.slots_root (h : Booted t s) (hm : Made files t) (hfit : Mkfs.Fits files) (hn : (files.length + 2) % 64 ≠ 0) :
    ∃ n, slots ((Mkfs.sb.inode s.block 1).bytes s.block) = (rootNames files).map some ++ List.replicate n none := by
  have hcount := hfit.count
  have hN : NINODES = 200 := rfl
  have hsize : (Mkfs.sb.inode s.block 1).size = blocksOf (16 * (files.length + 2)) * BSIZE := by
    rw [h.inode (by decide), size_root hm]
    simp only [blocksOf, BSIZE]
    omega
  have hdvd : blocksOf (16 * (files.length + 2)) * BSIZE = 16 * (files.length + 2) +
      DIRENT * (64 * blocksOf (16 * (files.length + 2)) - (files.length + 2)) := by
    simp only [blocksOf, BSIZE, DIRENT]
    omega
  refine ⟨64 * blocksOf (16 * (files.length + 2)) - (files.length + 2), ?_⟩
  rw [← slots_zeros, ← slots_rootBytes (by omega)]
  congr 1
  refine List.ext_getElem? fun p => ?_
  rw [Dinode.bytes, Dinode.getElem?_segment, Nat.zero_add, hsize]
  split
  · next hp =>
    rw [(h.root_byte hm hfit hp).2, List.getD_eq_getElem?_getD, List.getElem?_append, List.getElem?_replicate]
    rw [hdvd] at hp
    split
    · next hlt =>
      rw [List.getElem?_eq_getElem hlt]
      rfl
    · next hge =>
      rw [length_rootBytes] at hge ⊢
      rw [if_pos (by omega), List.getElem?_eq_none (by rw [length_rootBytes]; omega)]
      rfl
  · next hp =>
    rw [List.getElem?_eq_none]
    rw [List.length_append, length_rootBytes, List.length_replicate, ← hdvd]
    omega

end Xv6.Fs
