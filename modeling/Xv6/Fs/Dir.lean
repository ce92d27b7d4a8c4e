/-
A directory is a table of slots, one for each 16 bytes of its file: an inode number, 0 if
the slot is empty, and a name of up to 14 bytes. dirlookup and dirlink go through the
slots in order, dirlink writes to the first empty one or at the end, and what sys_unlink
does to a directory is to write an empty slot over the one it found. So the directory is
a finite map from names.
-/
import Xv6.Fs.ByteArray
import Xv6.Lib.Slots

namespace Xv6.Fs

open Lib

/-! ## Names -/

/-- The part of a name that counts: up to the first NUL, and no more than DIRSIZ bytes. -/
def key (s : List UInt8) : List UInt8 := (s.takeWhile (· ≠ 0)).take DIRSIZ

theorem take_name_succ (s : List UInt8) (n i : Nat) : ((s.drop i).takeWhile (· ≠ 0)).take (n + 1) =
    if char s i = 0 then [] else char s i :: ((s.drop (i + 1)).takeWhile (· ≠ 0)).take n := by
  have hchar : char s i = (s.drop i).getD 0 0 := by simp [char, List.getD_eq_getElem?_getD]
  have htail : s.drop (i + 1) = (s.drop i).tail := by simp
  rw [hchar, htail]
  cases s.drop i with
  | nil => rfl
  | cons a l =>
    simp only [List.getD_cons_zero, List.tail_cons, List.takeWhile_cons, decide_not, Bool.not_eq_true',
      decide_eq_false_iff_not]
    by_cases ha : a = 0
    · rw [if_neg (by simpa using ha), if_pos ha, List.take_nil]
    · rw [if_pos ha, if_neg ha, List.take_succ_cons]

/-- strncmp compares what counts. -/
theorem strnEq_iff (p q : List UInt8) : ∀ n i, strnEq p q n i = true ↔
    ((p.drop i).takeWhile (· ≠ 0)).take n = ((q.drop i).takeWhile (· ≠ 0)).take n
  | 0, i => by simp [strnEq]
  | n + 1, i => by
    rw [take_name_succ, take_name_succ, strnEq]
    by_cases hp : char p i = 0
    · rw [if_neg (by simp [hp]), if_pos hp, hp]
      by_cases hq : char q i = 0
      · simp [hq]
      · simp [hq, Ne.symm hq]
    · by_cases he : char p i = char q i
      · rw [if_pos ⟨hp, he⟩, if_neg hp, if_neg (he ▸ hp), strnEq_iff p q n (i + 1), he, List.cons_inj_right]
      · rw [if_neg (by simp [he]), if_neg hp]
        by_cases hq : char q i = 0
        · simp [hq, hp]
        · simp [hq, he]

theorem namecmp_iff {s t : List UInt8} : namecmp s t = true ↔ key s = key t := by
  rw [namecmp, strnEq_iff, List.drop_zero, List.drop_zero, key, key]

theorem key_strncpy (t : List UInt8) : key (strncpy t DIRSIZ) = key t := by
  have hne (a : UInt8) (ha : a ∈ (t.takeWhile (· ≠ 0)).take DIRSIZ) : a ≠ 0 := by
    simpa using List.mem_takeWhile_imp (List.mem_of_mem_take ha)
  have hpad (n : Nat) : (List.replicate n (0 : UInt8)).takeWhile (· ≠ 0) = [] := by
    cases n <;> simp [List.replicate_succ]
  unfold strncpy key
  rw [List.takeWhile_append_of_pos (by simpa using hne), hpad, List.append_nil, List.take_take, Nat.min_self]

theorem length_strncpy (t : List UInt8) : (strncpy t DIRSIZ).length = DIRSIZ := by
  unfold strncpy
  rw [List.length_append, List.length_replicate]
  have : ((t.takeWhile (· ≠ 0)).take DIRSIZ).length ≤ DIRSIZ := List.length_take_le ..
  omega

/-! ## Slots -/

/-- The slot an entry is. -/
def slotOf (de : List UInt8) : Option (List UInt8 × Nat) :=
  if direntInum de = 0 then none else some (key (direntName de), direntInum de)

/-- The test of dirlookup's loop. -/
theorem has_slotOf {name de : List UInt8} :
    Slots.has (key name) (slotOf de) = true ↔ direntInum de ≠ 0 ∧ namecmp name (direntName de) = true := by
  rw [Slots.has_iff, slotOf, namecmp_iff]
  split
  · next h => simp [h]
  · next h => simp [h, eq_comm]

theorem length_dirent {inum : Nat} {name : List UInt8} : (dirent inum name).length = DIRENT := by
  rw [dirent, List.length_append, length_strncpy]
  rfl

theorem slotOf_dirent {inum : Nat} {name : List UInt8} (h0 : 0 < inum) (hlt : inum < 65536) :
    slotOf (dirent inum name) = some (key name, inum) := by
  have hinum : direntInum (dirent inum name) = inum := by
    simp only [direntInum, dirent, List.cons_append, List.nil_append, List.getD_cons_zero, List.getD_cons_succ,
      UInt8.toNat_ofNat']
    omega
  have hname : direntName (dirent inum name) = strncpy name DIRSIZ := rfl
  rw [slotOf, hinum, if_neg (by omega), hname, key_strncpy]

theorem slotOf_empty : slotOf (List.replicate DIRENT 0) = none := by decide

/-- The slots of a directory whose bytes are `c`. -/
def slots (c : List UInt8) : Slots (List UInt8) Nat :=
  (List.range (c.length / DIRENT)).map fun i => slotOf ((c.drop (DIRENT * i)).take DIRENT)

theorem length_slots (c : List UInt8) : (slots c).length = c.length / DIRENT := by simp [slots]

theorem getElem?_slots {c : List UInt8} {i : Nat} (h : i < c.length / DIRENT) :
    (slots c)[i]? = some (slotOf ((c.drop (DIRENT * i)).take DIRENT)) := by
  unfold slots
  rw [List.getElem?_map, List.getElem?_range h]
  rfl

theorem drop_slots {c : List UInt8} {i : Nat} (h : i < c.length / DIRENT) :
    (slots c).drop i = slotOf ((c.drop (DIRENT * i)).take DIRENT) :: (slots c).drop (i + 1) := by
  have hlt : i < (slots c).length := by rwa [length_slots]
  have hget := getElem?_slots h
  rw [List.getElem?_eq_getElem hlt] at hget
  rw [List.drop_eq_getElem_cons hlt, Option.some.inj hget]

/-- An entry is written over another, or behind the last. -/
theorem slots_splice {c de : List UInt8} {i : Nat} (hdvd : DIRENT ∣ c.length) (hde : de.length = DIRENT)
    (hi : i ≤ c.length / DIRENT) : slots (splice c (DIRENT * i) de) =
      if i < c.length / DIRENT then (slots c).set i (slotOf de) else slots c ++ [slotOf de] := by
  obtain ⟨n, hn⟩ := hdvd
  have hdiv : c.length / DIRENT = n := by
    rw [hn]
    exact Nat.mul_div_cancel_left n (by decide)
  have hD : DIRENT = 16 := rfl
  rw [hdiv] at hi ⊢
  have hlen : (splice c (DIRENT * i) de).length = DIRENT * max n (i + 1) := by
    rw [length_splice (by rw [hn]; exact Nat.mul_le_mul_left _ hi), hn, hde, hD]
    omega
  have hdiv' : (splice c (DIRENT * i) de).length / DIRENT = max n (i + 1) := by
    rw [hlen]
    exact Nat.mul_div_cancel_left _ (by decide)
  -- the new slot, and any other
  have hself : ((splice c (DIRENT * i) de).drop (DIRENT * i)).take DIRENT = de := by
    have htake : (c.take (DIRENT * i)).length = DIRENT * i := by
      rw [List.length_take, hn, hD]
      omega
    unfold splice
    rw [List.append_assoc, List.drop_append_of_le_length htake.ge, List.drop_of_length_le htake.le, List.nil_append,
      List.take_append_of_le_length hde.ge, List.take_of_length_le hde.le]
  have hother (j : Nat) (hj : j ≠ i) :
      ((splice c (DIRENT * i) de).drop (DIRENT * j)).take DIRENT = (c.drop (DIRENT * j)).take DIRENT := by
    refine List.ext_getElem? fun k => ?_
    rw [List.getElem?_take, List.getElem?_take, List.getElem?_drop, List.getElem?_drop]
    split
    · next hk =>
      rw [getElem?_splice (by rw [hn]; exact Nat.mul_le_mul_left _ hi), if_neg]
      rw [hde]
      rw [hD] at hk ⊢
      omega
    · rfl
  refine List.ext_getElem? fun j => ?_
  by_cases hj : j < max n (i + 1)
  · rw [getElem?_slots (by rwa [hdiv'])]
    by_cases hji : j = i
    · rw [hji, hself]
      split
      · next hin => rw [List.getElem?_set_self (by rwa [length_slots, hdiv])]
      · next hin =>
        have hil : i = (slots c).length := by
          rw [length_slots, hdiv]
          omega
        rw [List.getElem?_append_right hil.ge, hil]
        simp
    · rw [hother j hji]
      have hjn : j < n := by omega
      split
      · rw [List.getElem?_set_ne (Ne.symm hji), getElem?_slots (by rwa [hdiv])]
      · rw [List.getElem?_append_left (by rwa [length_slots, hdiv]), getElem?_slots (by rwa [hdiv])]
  · have hnone : (slots (splice c (DIRENT * i) de))[j]? = none := by
      refine List.getElem?_eq_none ?_
      rw [length_slots, hdiv']
      omega
    rw [hnone]
    split
    · exact (List.getElem?_eq_none (by rw [List.length_set, length_slots, hdiv]; omega)).symm
    · exact (List.getElem?_eq_none (by rw [List.length_append, length_slots, hdiv, List.length_singleton]; omega)).symm

/-- **A directory**: whole entries, no name in two of them. -/
structure Directory (c : List UInt8) : Prop where
  whole : DIRENT ∣ c.length
  distinct : (slots c).Distinct

/-! ## Reading entries -/

variable {s s' : State} {dp : Fin NINODE} {name : List UInt8} {c : List UInt8}

/-- The process holds the directory, whose bytes are `c`. -/
structure DirAt (s : State) (dp : Fin NINODE) (c : List UInt8) : Prop where
  consistent : s.Consistent
  holds : s.Holds dp
  type : (s.itable dp).d.type = T_DIR
  contents : s.contents (s.itable dp).inum = c
  whole : DIRENT ∣ c.length

namespace DirAt

variable (h : DirAt s dp c)

include h

theorem length : c.length = (s.itable dp).d.size := by
  rw [← h.contents, State.contents, Dinode.length_bytes, (h.holds.live h.consistent.keyed).dinode]

theorem length_le : c.length ≤ MAXFILE * BSIZE := by
  have hl := h.holds.live h.consistent.keyed
  have hsolid := (h.consistent.owned.solid h.holds.inum (hl.dinode ▸ h.holds.type)).1
  rw [hl.dinode, ← h.length] at hsolid
  simp only [blocksOf, BSIZE] at hsolid ⊢
  omega

theorem readDirent {i : Nat} {msg : String} (hi : i < c.length / DIRENT) :
    readDirent dp msg (DIRENT * i) s = .ok ((c.drop (DIRENT * i)).take DIRENT, s) := by
  have hle := h.length_le
  have hM : MAXFILE * BSIZE = 274432 := by decide
  have hD : DIRENT = 16 := rfl
  have hlen : ((c.drop (DIRENT * i)).take DIRENT).length = DIRENT := by
    rw [List.length_take, List.length_drop]
    rw [hD] at hi ⊢
    omega
  obtain ⟨r, hr, hread⟩ := reads_contents h.consistent h.holds toKernel (DIRENT * i) DIRENT (fun _ _ => rfl)
    (by rw [hD] at hi ⊢; omega)
  rw [h.contents] at hr
  unfold Fs.readDirent
  rw [Code.bind_ok hread, hr]
  dsimp only
  rw [hlen, if_neg (by simp)]
  rfl

/-- The offsets of the source's loops. -/
theorem offsets : offsets (s.itable dp).d.size = (List.range' 0 (slots c).length).map (DIRENT * ·) := by
  obtain ⟨n, hn⟩ := h.whole
  unfold Fs.offsets
  rw [← h.length, length_slots, hn, Nat.mul_div_cancel_left n (by decide), ← List.range_eq_range']
  congr 2
  simp only [DIRENT]
  omega

/-- The loop of dirlookup, from slot `i` on. -/
theorem dirlookupFrom (k i : Nat) (hik : i + k = (slots c).length) :
    dirlookupFrom dp name ((List.range' i k).map (DIRENT * ·)) s =
      match Slots.find ((slots c).drop i) (key name) with
      | none => .ok (none, s)
      | some j => (do return some (← iget (direntInum ((c.drop (DIRENT * (i + j))).take DIRENT)), DIRENT * (i + j)) :
          Code State _) s := by
  induction k generalizing i with
  | zero =>
    rw [List.drop_of_length_le (by omega)]
    rfl
  | succ k ih =>
    have hi : i < c.length / DIRENT := by
      rw [length_slots] at hik
      omega
    rw [List.range'_succ, List.map_cons, Fs.dirlookupFrom, Code.bind_ok (h.readDirent hi), drop_slots hi]
    unfold Slots.find at ih ⊢
    rw [List.findIdx?_cons]
    by_cases hs : Slots.has (key name) (slotOf ((c.drop (DIRENT * i)).take DIRENT)) = true
    · rw [if_pos (has_slotOf.mp hs), if_pos hs]
      rfl
    · rw [if_neg (has_slotOf.not.mp hs), if_neg hs, ih (i + 1) (by omega)]
      cases List.findIdx? (Slots.has (key name)) ((slots c).drop (i + 1)) with
      | none => rfl
      | some j =>
        dsimp only [Option.map_some]
        rw [show i + 1 + j = i + (j + 1) by omega]

/-- **dirlookup** finds the name's slot, and fetches the inode. -/
theorem dirlookup (name : List UInt8) : dirlookup dp name s =
    match (slots c).find (key name) with
    | none => .ok (none, s)
    | some i => (do return some (← iget (direntInum ((c.drop (DIRENT * i)).take DIRENT)), DIRENT * i) : Code State _) s := by
  unfold Fs.dirlookup
  rw [inode_bind, if_neg (by simp [h.type]), h.offsets, h.dirlookupFrom _ 0 (Nat.zero_add _), List.drop_zero]
  cases (slots c).find (key name) with
  | none => rfl
  | some j => simp only [Nat.zero_add]

/-- The loop of dirlink, from slot `i` on. -/
theorem dirlinkFrom (k i : Nat) (hik : i + k = (slots c).length) :
    dirlinkFrom dp (s.itable dp).d.size ((List.range' i k).map (DIRENT * ·)) s =
      .ok (DIRENT * (i + (((slots c).drop i).findIdx? Option.isNone).getD k), s) := by
  induction k generalizing i with
  | zero =>
    obtain ⟨n, hn⟩ := h.whole
    have hin : i = n := by
      rw [length_slots, hn, Nat.mul_div_cancel_left n (by decide)] at hik
      omega
    rw [List.drop_of_length_le (by omega), List.range'_zero, List.map_nil, Fs.dirlinkFrom, ← h.length, hn, hin]
    simp only [DIRENT, List.findIdx?_nil, Option.getD_none]
    change Except.ok (_, s) = _
    congr 2
    omega
  | succ k ih =>
    have hi : i < c.length / DIRENT := by
      rw [length_slots] at hik
      omega
    rw [List.range'_succ, List.map_cons, Fs.dirlinkFrom, Code.bind_ok (h.readDirent hi), drop_slots hi, List.findIdx?_cons]
    by_cases h0 : direntInum ((c.drop (DIRENT * i)).take DIRENT) = 0
    · rw [if_pos h0, if_pos (by rw [slotOf, if_pos h0]; rfl)]
      rfl
    · rw [if_neg h0, if_neg (by rw [slotOf, if_neg h0]; exact Bool.false_ne_true), ih (i + 1) (by omega)]
      cases List.findIdx? Option.isNone ((slots c).drop (i + 1)) with
      | none =>
        dsimp only [Option.map_none, Option.getD_none]
        rw [show i + 1 + k = i + (k + 1) by omega]
      | some j =>
        dsimp only [Option.map_some, Option.getD_some]
        rw [show i + 1 + j = i + (j + 1) by omega]

end DirAt

/-! ## Writing an entry -/

theorem needed_one {d : Dinode} {blk : Nat → Block} {k : Nat} : needed d blk k (k + 1) = missing d blk k := by
  unfold needed missing
  rw [Nat.Ico_succ_singleton, Finset.filter_singleton]
  simp only [Nat.lt_succ_iff]
  split <;> rfl

/-- Without the blocks for the first byte, writei stores nothing. -/
theorem writei_full {I : Nat → Dinode} {X : Multiset Nat} {ip : Fin NINODE} {off n : Nat} (src : Source)
    (hs : s.sb.Sound) (h : Owned s.sb I s.block X) (hl : Live I s ip) (hoff : off ≤ (s.itable ip).d.size) (hn : 0 < n)
    (hend : off + n ≤ MAXFILE * BSIZE)
    (hfull : (s.sb.free s.block).card < missing (s.itable ip).d s.block (off / BSIZE)) :
    Runs (fun _ => True) 6 (writei ip src off n) s fun r _ => r = 0 := by
  have hM : MAXFILE * BSIZE = 274432 := by decide
  have hu : u32 (off + n) = off + n := Nat.mod_eq_of_lt (by omega)
  obtain ⟨k, rfl⟩ : ∃ k, n = k + 1 := ⟨n - 1, by omega⟩
  unfold writei
  refine Runs.inode ?_
  rw [hu, if_neg (by omega), if_neg (by omega), writeiLoop, if_neg (by omega)]
  refine Runs.seq (k := 5) (Q := fun r _ => r = (off, 0)) ?_ 1 le_rfl fun r s₁ _ hr => ?_
  · refine (bmap_spec hs h hl (div_BSIZE_lt (by omega))).seq 0 le_rfl fun a s₁ _ hb => ?_
    obtain ⟨d, hb⟩ := hb
    have ha : a = 0 := by
      by_contra ha
      have := hb.room ha
      omega
    rw [if_pos ha]
    exact Runs.pure rfl
  · rw [hr]
    refine Runs.setInode (Runs.seq (Q := fun _ _ => True) ?_ 0 le_rfl fun _ _ _ _ => Runs.pure rfl)
    unfold iupdate
    exact Runs.inode (Runs.get (Runs.bread (Runs.log_last trivial)))

/-- An entry at `off` can be written: there is a place for it in the file, and in the free blocks. -/
def Fits (s : State) (dp : Fin NINODE) (off : Nat) : Prop :=
  off + DIRENT ≤ MAXFILE * BSIZE ∧ missing (s.itable dp).d s.block (off / BSIZE) ≤ (s.sb.free s.block).card

instance (s : State) (dp : Fin NINODE) (off : Nat) : Decidable (Fits s dp off) := inferInstanceAs (Decidable (_ ∧ _))

/-- What writing an entry at `off` leaves: the entry, if it fits, and nothing else. -/
structure EntryWrite (s : State) (dp : Fin NINODE) (de : List UInt8) (off : Nat) (r : Int) (s' : State) : Prop where
  result : r = DIRENT ↔ Fits s dp off
  array : ArrayWrite s dp de off (if Fits s dp off then DIRENT else 0) s'
  holds : s'.Holds dp
  inum : (s'.itable dp).inum = (s.itable dp).inum
  fields : (s'.itable dp).d = { (s.itable dp).d with addrs := (s'.itable dp).d.addrs, size := (s'.itable dp).d.size }
  kept : Kept (fun _ => True) 7 s s'
  itable : ∀ kp, kp ≠ dp → s'.itable kp = s.itable kp
  rewritten : Rewritten s dp s'

theorem ArrayWrite.none {ip : Fin NINODE} {data : List UInt8} {off : Nat} (hc : s.Consistent) (hh : s.Holds ip)
    (hoff : off ≤ (s.itable ip).d.size) : ArrayWrite s ip data off 0 s := by
  have hd : s.dinode (s.itable ip).inum = (s.itable ip).d := (hh.live hc.keyed).dinode
  have hsame : splice (s.contents (s.itable ip).inum) off (data.take 0) = s.contents (s.itable ip).inum := by
    simp [splice]
  refine ⟨hc, ?_, hsame.symm, fun _ _ _ _ => rfl, ?_⟩
  · rw [hd]
    omega
  · rw [hsame]
    exact reads_contents hc hh

theorem DirAt.writei (h : DirAt s dp c) (ho : 0 < s.outstanding) (de : List UInt8) {i : Nat} (hde : de.length = DIRENT)
    (hi : i ≤ c.length / DIRENT) : match writei dp (.kernel de) (DIRENT * i) DIRENT s with
      | .ok (r, s') => EntryWrite s dp de (DIRENT * i) r s'
      | .error msg => msg = "too big a transaction" ∧ s.room < 7 := by
  have hD : DIRENT = 16 := rfl
  have hl := h.holds.live h.consistent.keyed
  have hle := h.length_le
  have hM : MAXFILE * BSIZE = 274432 := by decide
  have hoff : DIRENT * i ≤ (s.itable dp).d.size := by
    rw [← h.length]
    rw [hD] at hi ⊢
    omega
  by_cases hend : DIRENT * i + DIRENT ≤ MAXFILE * BSIZE
  · have hspans : 6 * spans (DIRENT * i) DIRENT + 1 = 7 := by
      unfold spans
      rw [if_neg (by decide), hD]
      simp only [BSIZE]
      omega
    have hrun := writei_spec (D := fun _ => True) h.consistent.sound h.consistent.owned hl
      (Source.gives_kernel de) hoff (by rwa [hde]) (fun _ _ _ => trivial) ho
    rw [hde, hspans] at hrun
    cases he : Fs.writei dp (.kernel de) (DIRENT * i) DIRENT s with
    | error msg =>
      rw [he] at hrun
      exact hrun
    | ok r =>
      rw [he] at hrun
      obtain ⟨hk, t, g, d, hr, -, hstop, hw⟩ := hrun
      have hx : r.2.itable dp = { s.itable dp with d } := by rw [hw.itable, Function.update_self]
      -- an entry lies in one block, so it is written or not
      have ht : t = (if Fits s dp (DIRENT * i) then DIRENT else 0) ∧ g = t := by
        rcases hstop with ⟨ht, hg⟩ | ⟨ht, hg, hfull, halign⟩ | ⟨-, -, hg, hdata, -⟩
        · refine ⟨?_, by omega⟩
          by_cases hfit : Fits s dp (DIRENT * i)
          · rw [if_pos hfit, ht]
          · have hfull := writei_full (.kernel de) h.consistent.sound h.consistent.owned hl hoff (by decide) hend
              (by_contra fun hlt => hfit ⟨hend, by omega⟩) ho
            rw [he] at hfull
            rw [if_neg hfit]
            have := hfull.2
            omega
        · have ht0 : t = 0 := by
            rw [hD] at ht halign
            simp only [BSIZE] at halign
            omega
          refine ⟨?_, hg⟩
          rw [show DIRENT * i + t = DIRENT * i by omega, needed_one] at hfull
          rw [if_neg (fun hfit => by have := hfit.2; omega), ht0]
        · omega
      obtain ⟨ht, hg⟩ := ht
      have htle : t ≤ DIRENT := by
        rw [ht]
        split <;> omega
      refine ⟨?_, ?_, hw.holds h.holds hk.sb, hw.inum, ?_, hk, fun kp hkp => ?_, hw.rewritten h.consistent h.holds hk.sb⟩
      · rw [hr, ht]
        by_cases hfit : Fits s dp (DIRENT * i)
        · simp [hfit]
        · rw [if_neg hfit]
          exact ⟨fun h0 => absurd h0 (by decide), fun h0 => absurd h0 hfit⟩
      · rw [← ht]
        exact hw.arrayWrite h.consistent h.holds hk.sb hoff (by omega) (by omega) hg
      · rw [hx]
        dsimp only
        rw [hw.fields]
      · rw [hw.itable, Function.update_of_ne hkp]
  · have hno : ¬ Fits s dp (DIRENT * i) := fun hfit => hend hfit.1
    have hu : u32 (DIRENT * i + DIRENT) = DIRENT * i + DIRENT := by
      refine Nat.mod_eq_of_lt ?_
      rw [hD] at hi ⊢
      omega
    have hret : Fs.writei dp (.kernel de) (DIRENT * i) DIRENT s = .ok (-1, s) := by
      unfold Fs.writei
      rw [inode_bind, hu, if_neg (by omega), if_pos (by omega)]
      rfl
    rw [hret]
    refine ⟨?_, ?_, h.holds, rfl, rfl, .rfl, fun _ _ => rfl, .refl h.consistent⟩
    · exact ⟨fun h0 => absurd h0 (by decide), fun h0 => absurd h0 hno⟩
    · rw [if_neg hno]
      exact ArrayWrite.none h.consistent h.holds hoff

/-- There is a block for every entry there is. -/
theorem DirAt.fits (h : DirAt s dp c) {i : Nat} (hi : i < c.length / DIRENT) : Fits s dp (DIRENT * i) := by
  have hD : DIRENT = 16 := rfl
  have hl := h.holds.live h.consistent.keyed
  have hsolid := h.consistent.owned.solid h.holds.inum (hl.dinode ▸ h.holds.type)
  rw [hl.dinode] at hsolid
  have hle := h.length_le
  have hk : DIRENT * i / BSIZE < blocksOf (s.itable dp).d.size := by
    rw [← h.length]
    rw [hD] at hi ⊢
    simp only [blocksOf, BSIZE]
    omega
  have hne := hsolid.2 _ hk
  refine ⟨?_, ?_⟩
  · rw [hD] at hi ⊢
    omega
  · have hmiss : missing (s.itable dp).d s.block (DIRENT * i / BSIZE) = 0 := by
      unfold missing
      rw [if_neg hne, if_neg]
      rintro ⟨hge, h0⟩
      refine hne ?_
      unfold Dinode.addr
      rw [if_neg (by omega), if_pos h0]
    omega

end Xv6.Fs
