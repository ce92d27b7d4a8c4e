/-
A directory is a finite map from names to inode numbers. For any sequence of dirlink calls
and removals of entries, with anything in between that leaves the directory alone: no
name is in two entries; dirlookup finds the inode number most recently linked under the
name, and where its entry is; dirlink fails only if the name is there, or no entry is
empty and the directory cannot grow, and then changes nothing. The entries are always
whole, so the kernel does not panic for reading one; it can panic for want of a table
entry or of room in the log.
-/
import Xv6.Fs.Root

namespace Xv6.Fs

open Lib

variable {s s' : State} {dp : Fin NINODE} {name c : List UInt8} {inum dnum : Nat}

/-! ## One call -/

/-- Whether dirlink has to fail: the name is there, or no entry is empty and none can be added. -/
def Refused (s : State) (dp : Fin NINODE) (c name : List UInt8) : Prop :=
  (slots c).lookup (key name) ≠ none ∨ (∀ e ∈ slots c, e ≠ none) ∧ ¬ Fits s dp c.length

/-- The state has changed at most in the table. -/
theorem DirAt.same (h : DirAt s dp c) (hs : SameFs s s') (hh : s'.Holds dp)
    (hinum : (s'.itable dp).inum = (s.itable dp).inum) (hd : (s'.itable dp).d = (s.itable dp).d) : DirAt s' dp c where
  consistent := hs.consistent h.consistent
  holds := hh
  type := hd ▸ h.type
  contents := by
    rw [hinum, hs.contents h.consistent.keyed]
    exact h.contents
  whole := h.whole

theorem DirAt.fetched {ip : Fin NINODE} (h : DirAt s dp c) (hf : Fetched inum s ip s') : DirAt s' dp c := by
  obtain ⟨hh, hinum, hd⟩ := hf.holds h.holds
  exact h.same hf.same hh hinum hd

theorem DirAt.idle (h : DirAt s dp c) (hi : Idle s s') : DirAt s' dp c := by
  have hx := hi.used (.inl h.holds.ref)
  exact h.same hi.same (hi.holds h.holds) (by rw [hx]) (by rw [hx])

/-- The directory after a write of an entry. -/
theorem DirAt.entryWrite {de : List UInt8} {i : Nat} {r : Int} (h : DirAt s dp c) (hde : de.length = DIRENT)
    (hi : i ≤ c.length / DIRENT) (hw : EntryWrite s dp de (DIRENT * i) r s') :
    DirAt s' dp (if Fits s dp (DIRENT * i) then splice c (DIRENT * i) de else c) := by
  have hoff : DIRENT * i ≤ c.length := (Nat.mul_le_mul_left _ hi).trans (Nat.mul_div_le _ _)
  have hcont := hw.array.contents
  rw [h.contents, ← hw.inum] at hcont
  have htype : (s'.itable dp).d.type = T_DIR := by
    rw [hw.fields]
    exact h.type
  refine ⟨hw.array.consistent, hw.holds, htype, ?_, ?_⟩
  · rw [hcont]
    split
    · rw [List.take_of_length_le hde.le]
    · simp [splice]
  · split
    · rw [length_splice hoff, hde]
      obtain ⟨n, hn⟩ := h.whole
      exact ⟨max n (i + 1), by rw [hn, DIRENT]; omega⟩
    · exact h.whole

/-- The slot dirlink writes to. -/
theorem freeSlot (c : List UInt8) {i : Nat} (hi : i = ((slots c).findIdx? Option.isNone).getD (slots c).length) :
    i < (slots c).length ∧ (slots c)[i]? = some none ∨ i = (slots c).length ∧ ∀ e ∈ slots c, e ≠ none := by
  cases hf : (slots c).findIdx? Option.isNone with
  | none =>
    rw [hf] at hi
    refine .inr ⟨hi, fun e he h0 => ?_⟩
    have := List.findIdx?_eq_none_iff.mp hf e he
    rw [h0] at this
    cases this
  | some j =>
    rw [hf, Option.getD_some] at hi
    obtain ⟨hlt, hnone, -⟩ := List.findIdx?_eq_some_iff_getElem.mp hf
    rw [hi, List.getElem?_eq_getElem hlt, Option.isNone_iff_eq_none.mp hnone]
    exact .inl ⟨hlt, rfl⟩

/-- **What dirlink does.** -/
structure LinkOutcome (s : State) (dp : Fin NINODE) (c name : List UInt8) (inum : Nat) (r : Int) (s' : State)
    (c' : List UInt8) : Prop where
  dir : DirAt s' dp c'
  sameInum : (s'.itable dp).inum = (s.itable dp).inum
  refused : Refused s dp c name → r = -1 ∧ c' = c
  linked : ¬ Refused s dp c name → r = 0 ∧ (slots c').Distinct ∧
    ∀ k, (slots c').lookup k = if k = key name then some inum else (slots c).lookup k

theorem dirlink_spec (name : List UInt8) (h : DirAt s dp c) (hd : (slots c).Distinct) (ho : 0 < s.outstanding) (h0 : 0 < inum)
    (hlt : inum < 65536) : match dirlink dp name inum s with
      | .ok (r, s') => ∃ c', LinkOutcome s dp c name inum r s' c'
      | .error msg => msg = "iget: no inodes" ∧ s.unused = none ∨ msg = "too big a transaction" ∧ s.room < 7 := by
  unfold dirlink
  cases hf : (slots c).find (key name) with
  | some i =>
    -- the name is there: the inode is fetched and given back
    have hlook := h.dirlookup name
    rw [hf] at hlook
    dsimp only at hlook
    have hget := iget_spec s (direntInum ((c.drop (DIRENT * i)).take DIRENT))
    have href : Refused s dp c name := .inl fun hn => by
      rw [(Slots.lookup_none hd).mp hn] at hf
      cases hf
    cases hg : iget (direntInum ((c.drop (DIRENT * i)).take DIRENT)) s with
    | error msg =>
      rw [hg] at hget
      rw [Code.bind_error hg] at hlook
      rw [Code.bind_error hlook]
      exact .inl hget
    | ok p =>
      obtain ⟨ip, s₁⟩ := p
      rw [Code.bind_ok hg] at hlook
      obtain ⟨s₂, hput, hidle⟩ := iput_after_iget hg
      rw [Code.bind_ok hlook]
      dsimp only
      rw [Code.bind_ok hput]
      refine ⟨c, h.idle hidle, ?_, fun _ => ⟨rfl, rfl⟩, fun hn => absurd href hn⟩
      rw [hidle.used (.inl h.holds.ref)]
  | none =>
    have hlook := h.dirlookup name
    rw [hf] at hlook
    have hfrom := h.dirlinkFrom (slots c).length 0 (Nat.zero_add _)
    rw [← h.offsets, List.drop_zero, Nat.zero_add] at hfrom
    rw [Code.bind_ok hlook]
    dsimp only
    rw [inode_bind, Code.bind_ok hfrom]
    generalize hi : ((slots c).findIdx? Option.isNone).getD (slots c).length = i
    have hslot := freeSlot c hi.symm
    have hle : i ≤ c.length / DIRENT := by
      rw [length_slots] at hslot
      rcases hslot with ⟨hlt, -⟩ | ⟨heq, -⟩ <;> omega
    have hnone : (slots c).lookup (key name) = none := (Slots.lookup_none hd).mpr hf
    have hwhole : DIRENT * (c.length / DIRENT) = c.length := Nat.mul_div_cancel' h.whole
    -- dirlink is refused if and only if the entry does not fit
    have hrefused : Refused s dp c name ↔ ¬ Fits s dp (DIRENT * i) := by
      rcases hslot with ⟨hil, hnil⟩ | ⟨heq, hall⟩
      · have hfits := h.fits (i := i) (by rwa [length_slots] at hil)
        refine ⟨fun hr => ?_, fun hn => absurd hfits hn⟩
        rcases hr with hr | ⟨hall, -⟩
        · exact absurd hnone hr
        · exact absurd rfl (hall none (List.mem_of_getElem? hnil))
      · rw [heq, length_slots, hwhole]
        exact ⟨fun hr => hr.elim (absurd hnone) And.right, fun hn => .inr ⟨hall, hn⟩⟩
    have hwrite := h.writei ho (dirent inum name) length_dirent hle
    cases hw : writei dp (.kernel (dirent inum name)) (DIRENT * i) DIRENT s with
    | error msg =>
      rw [hw] at hwrite
      rw [Code.bind_error hw]
      exact .inr hwrite
    | ok p =>
      rw [hw] at hwrite
      rw [Code.bind_ok hw]
      have hdir := h.entryWrite length_dirent hle hwrite
      by_cases hfit : Fits s dp (DIRENT * i)
      · rw [if_pos hfit] at hdir
        rw [if_neg (by simpa using hwrite.result.mpr hfit)]
        refine ⟨_, hdir, hwrite.inum, fun hr => absurd hfit (hrefused.mp hr), fun _ => ⟨rfl, ?_⟩⟩
        rw [slots_splice h.whole length_dirent hle, slotOf_dirent h0 hlt]
        rcases hslot with ⟨hil, hnil⟩ | ⟨heq, hall⟩
        · rw [if_pos (by rwa [length_slots] at hil)]
          exact ⟨(Slots.lookup_set (key name) hd hf hnil).1, fun k => (Slots.lookup_set k hd hf hnil).2⟩
        · rw [if_neg (by rw [length_slots] at heq; omega)]
          exact ⟨(Slots.lookup_append (key name) hd hf).1, fun k => (Slots.lookup_append k hd hf).2⟩
      · rw [if_neg hfit] at hdir
        rw [if_pos (by simpa using fun hr => hfit (hwrite.result.mp hr))]
        exact ⟨c, hdir, hwrite.inum, fun _ => ⟨rfl, rfl⟩, fun hn => absurd (hrefused.mpr hfit) hn⟩

/-- dirlookup fetches the inode the map has, if any; `i` is where its entry is. -/
theorem dirlookup_iget (h : DirAt s dp c) (hd : (slots c).Distinct) (name : List UInt8) :
    match (slots c).lookup (key name) with
    | none => dirlookup dp name s = .ok (none, s)
    | some inum => ∃ i, (slots c)[i]? = some (some (key name, inum)) ∧
      dirlookup dp name s = (do return some (← iget inum, DIRENT * i) : Code State _) s := by
  have hlook := h.dirlookup name
  cases hf : (slots c).find (key name) with
  | none =>
    rw [hf] at hlook
    rw [(Slots.lookup_none hd).mpr hf]
    exact hlook
  | some i =>
    rw [hf] at hlook
    obtain ⟨inum, hi⟩ := Slots.find_some hf
    rw [(Slots.lookup_of_find hd hf hi).2]
    refine ⟨i, hi, ?_⟩
    have hlt : i < c.length / DIRENT := by
      rw [← length_slots]
      exact (List.getElem?_eq_some_iff.mp hi).1
    have hinum : direntInum ((c.drop (DIRENT * i)).take DIRENT) = inum := by
      rw [getElem?_slots hlt, Option.some.injEq] at hi
      unfold slotOf at hi
      split at hi
      · cases hi
      · simp only [Option.some.injEq, Prod.mk.injEq] at hi
        exact hi.2
    rw [hlook]
    dsimp only
    rw [hinum]

/-- **What dirlookup returns**: the inode number the map has, and where its entry is. -/
theorem dirlookup_spec (h : DirAt s dp c) (hd : (slots c).Distinct) (name : List UInt8) :
    match (slots c).lookup (key name) with
    | none => dirlookup dp name s = .ok (none, s)
    | some inum => ∃ i, (slots c)[i]? = some (some (key name, inum)) ∧ match dirlookup dp name s with
      | .ok (r, s') => ∃ ip, r = some (ip, DIRENT * i) ∧ Fetched inum s ip s'
      | .error msg => msg = "iget: no inodes" ∧ s.unused = none := by
  have hlook := dirlookup_iget h hd name
  split
  · next hn =>
    rw [hn] at hlook
    exact hlook
  · next inum hs =>
    rw [hs] at hlook
    obtain ⟨i, hi, heq⟩ := hlook
    refine ⟨i, hi, ?_⟩
    have hget := iget_spec s inum
    rw [heq]
    cases hg : iget inum s with
    | error msg =>
      rw [hg] at hget
      rw [Code.bind_error hg]
      exact hget
    | ok p =>
      rw [hg] at hget
      rw [Code.bind_ok hg]
      exact ⟨p.1, rfl, hget⟩

/-- **What removing an entry does.** -/
structure RemoveOutcome (s : State) (dp : Fin NINODE) (c name : List UInt8) (r : Option (Fin NINODE)) (s' : State)
    (c' : List UInt8) : Prop where
  dir : DirAt s' dp c'
  sameInum : (s'.itable dp).inum = (s.itable dp).inum
  result : r = none ↔ (slots c).lookup (key name) = none
  distinct : (slots c').Distinct
  lookup : ∀ k, (slots c').lookup k = if k = key name then none else (slots c).lookup k

theorem removeEntry_spec (name : List UInt8) (h : DirAt s dp c) (hd : (slots c).Distinct) (ho : 0 < s.outstanding) :
    match removeEntry dp name s with
    | .ok (r, s') => ∃ c', RemoveOutcome s dp c name r s' c'
    | .error msg => msg = "iget: no inodes" ∧ s.unused = none ∨ msg = "too big a transaction" ∧ s.room < 7 := by
  unfold removeEntry
  have hlook := dirlookup_spec h hd name
  cases hl : (slots c).lookup (key name) with
  | none =>
    rw [hl] at hlook
    rw [Code.bind_ok hlook]
    refine ⟨c, h, rfl, ⟨fun _ => hl, fun _ => rfl⟩, hd, fun k => ?_⟩
    split
    · next hk => rw [hk, hl]
    · rfl
  | some inum =>
    rw [hl] at hlook
    obtain ⟨i, hi, hlook⟩ := hlook
    cases hr : dirlookup dp name s with
    | error msg =>
      rw [hr] at hlook
      rw [Code.bind_error hr]
      exact .inl hlook
    | ok p =>
      obtain ⟨r, s₁⟩ := p
      rw [hr] at hlook
      obtain ⟨ip, rfl, hfetch⟩ := hlook
      rw [Code.bind_ok hr]
      dsimp only
      have h₁ := h.fetched hfetch
      have hlt : i < c.length / DIRENT := by
        rw [← length_slots]
        exact (List.getElem?_eq_some_iff.mp hi).1
      have hzero : (List.replicate DIRENT (0 : UInt8)).length = DIRENT := List.length_replicate
      have hwrite := h₁.writei (by rwa [hfetch.same.outstanding]) _ hzero hlt.le
      unfold clearEntry
      cases hw : writei dp (.kernel (List.replicate DIRENT 0)) (DIRENT * i) DIRENT s₁ with
      | error msg =>
        rw [hw] at hwrite
        rw [Code.bind_error (Code.bind_error hw)]
        exact .inr ⟨hwrite.1, hfetch.same.room ▸ hwrite.2⟩
      | ok q =>
        rw [hw] at hwrite
        have hfit := h₁.fits hlt
        have hdir := h₁.entryWrite hzero hlt.le hwrite
        rw [if_pos hfit] at hdir
        have hclear : clearEntry dp (DIRENT * i) s₁ = .ok ((), q.2) := by
          unfold clearEntry
          rw [Code.bind_ok hw, if_neg (by simpa using hwrite.result.mpr hfit)]
          rfl
        unfold clearEntry at hclear
        rw [Code.bind_ok hclear]
        have hslots : slots (splice c (DIRENT * i) (List.replicate DIRENT 0)) = (slots c).set i none := by
          rw [slots_splice h.whole hzero hlt.le, if_pos hlt, slotOf_empty]
        refine ⟨_, hdir, hwrite.inum.trans (hfetch.holds h.holds).2.1, ?_, ?_, fun k => ?_⟩
        · simp [hl]
        · rw [hslots]
          exact hd.clear
        · rw [hslots]
          exact Slots.lookup_clear hd hi

/-! ## Runs -/

/-- The file system with a directory `dnum`. -/
structure HasDir (s : State) (dnum : Nat) : Prop where
  consistent : s.Consistent
  inum : dnum < s.sb.ninodes
  type : (s.dinode dnum).type = T_DIR
  directory : Directory (s.contents dnum)

/-- The map the directory is. -/
def State.names (s : State) (dnum : Nat) (name : List UInt8) : Option Nat := (slots (s.contents dnum)).lookup (key name)

/-- What has been done to the directory. -/
inductive DirEvent where
  | link (name : List UInt8) (inum : Nat) (r : Int)
  | remove (name : List UInt8)
  | other

/-- A call on the directory by a process that holds it, within a transaction; or anything else that leaves a consistent
file system and the directory's bytes alone. -/
inductive DirStep (dnum : Nat) : State → DirEvent → State → Prop
  | link {s s' dp name inum r} : s.Holds dp → (s.itable dp).inum = dnum → 0 < s.outstanding → 0 < inum →
      inum < 65536 → dirlink dp name inum s = .ok (r, s') → DirStep dnum s (.link name inum r) s'
  | remove {s s' dp name r} : s.Holds dp → (s.itable dp).inum = dnum → 0 < s.outstanding →
      removeEntry dp name s = .ok (r, s') → DirStep dnum s (.remove name) s'
  | other {s s' : State} : s'.Consistent → s'.sb = s.sb → (s'.dinode dnum).type = (s.dinode dnum).type →
      s'.contents dnum = s.contents dnum → DirStep dnum s .other s'

/-- A sequence of such steps; the first event is the latest. -/
inductive DirRun (dnum : Nat) (s₀ : State) : List DirEvent → State → Prop
  | nil : DirRun dnum s₀ [] s₀
  | cons {h s e s'} : DirRun dnum s₀ h s → DirStep dnum s e s' → DirRun dnum s₀ (e :: h) s'

/-- The inode number most recently linked under a name and not removed since; `m` is what the directory had at first. -/
def latest (m : List UInt8 → Option Nat) : List DirEvent → List UInt8 → Option Nat
  | [], name => m name
  | .link name' inum r :: h, name => if r = 0 ∧ key name = key name' then some inum else latest m h name
  | .remove name' :: h, name => if key name = key name' then none else latest m h name
  | .other :: h, name => latest m h name

theorem HasDir.dirAt (h : HasDir s dnum) (hh : s.Holds dp) (hi : (s.itable dp).inum = dnum) :
    DirAt s dp (s.contents dnum) where
  consistent := h.consistent
  holds := hh
  type := by rw [← (hh.live h.consistent.keyed).dinode, hi, h.type]
  contents := by rw [hi]
  whole := h.directory.whole

theorem DirAt.hasDir (h : DirAt s dp c) (hi : (s.itable dp).inum = dnum) (hd : (slots c).Distinct) :
    HasDir s dnum ∧ s.contents dnum = c := by
  have hc := h.contents
  rw [hi] at hc
  refine ⟨⟨h.consistent, hi ▸ h.holds.inum, ?_, ?_⟩, hc⟩
  · rw [← hi, (h.holds.live h.consistent.keyed).dinode]
    exact h.type
  · rw [hc]
    exact ⟨h.whole, hd⟩

/-- **One step** keeps the directory, and changes the map as the event says. -/
theorem DirStep.map {e : DirEvent} (h : HasDir s dnum) (hs : DirStep dnum s e s') :
    HasDir s' dnum ∧ ∀ name, s'.names dnum name = latest (s.names dnum) [e] name := by
  cases hs with
  | @link _ dp name inum r hh hi ho h0 hlt he =>
    have hat := h.dirAt hh hi
    have hlink := dirlink_spec name hat h.directory.distinct ho h0 hlt
    rw [he] at hlink
    obtain ⟨c', hout⟩ := hlink
    by_cases hr : Refused s dp (s.contents dnum) name
    · obtain ⟨rfl, rfl⟩ := hout.refused hr
      obtain ⟨hdir, hc⟩ := hout.dir.hasDir (hout.sameInum.trans hi) h.directory.distinct
      refine ⟨hdir, fun name' => ?_⟩
      rw [State.names, hc, latest, if_neg (fun hn => absurd hn.1 (by decide))]
      rfl
    · obtain ⟨rfl, hd', hlook⟩ := hout.linked hr
      obtain ⟨hdir, hc⟩ := hout.dir.hasDir (hout.sameInum.trans hi) hd'
      refine ⟨hdir, fun name' => ?_⟩
      rw [State.names, hc, hlook, latest]
      simp only [true_and]
      rfl
  | @remove _ dp name r hh hi ho he =>
    have hremove := removeEntry_spec name (h.dirAt hh hi) h.directory.distinct ho
    rw [he] at hremove
    obtain ⟨c', hout⟩ := hremove
    obtain ⟨hdir, hc⟩ := hout.dir.hasDir (hout.sameInum.trans hi) hout.distinct
    refine ⟨hdir, fun name' => ?_⟩
    rw [State.names, hc, hout.lookup]
    rfl
  | other hc hsb ht hcont =>
    refine ⟨⟨hc, hsb ▸ h.inum, ht.trans h.type, hcont ▸ h.directory⟩, fun name => ?_⟩
    rw [State.names, hcont]
    rfl

theorem DirRun.map {s₀ : State} {h : List DirEvent} (h₀ : HasDir s₀ dnum) (hr : DirRun dnum s₀ h s) :
    HasDir s dnum ∧ ∀ name, s.names dnum name = latest (s₀.names dnum) h name := by
  induction hr with
  | nil => exact ⟨h₀, fun _ => rfl⟩
  | @cons h s e s' _ hs ih =>
    obtain ⟨hdir, hmap⟩ := hs.map ih.1
    refine ⟨hdir, fun name => ?_⟩
    rw [hmap, show s.names dnum = latest (s₀.names dnum) h from funext ih.2]
    cases e <;> rfl

/-- dirlookup agrees with the map. -/
def LooksUp (s : State) (dnum : Nat) (dp : Fin NINODE) (name : List UInt8) : Option Nat → Prop
  | none => dirlookup dp name s = .ok (none, s)
  | some inum => ∃ i, (slots (s.contents dnum))[i]? = some (some (key name, inum)) ∧
    ((∃ ip s', dirlookup dp name s = .ok (some (ip, DIRENT * i), s') ∧ (s'.itable ip).inum = inum) ∨
      dirlookup dp name s = .error "iget: no inodes" ∧ s.unused = none)

/-- dirlink fails if and only if it has to, without a change to the directory. -/
def Links (s : State) (dnum : Nat) (dp : Fin NINODE) (name : List UInt8) (inum : Nat) : Prop :=
  (∃ r s', dirlink dp name inum s = .ok (r, s') ∧ (r = -1 ∨ r = 0) ∧
    (r = -1 ↔ s.names dnum name ≠ none ∨
      (∀ e ∈ slots (s.contents dnum), e ≠ none) ∧ ¬ Fits s dp (s.contents dnum).length) ∧
    (r = -1 → s'.contents dnum = s.contents dnum)) ∨
  dirlink dp name inum s = .error "iget: no inodes" ∧ s.unused = none ∨
  dirlink dp name inum s = .error "too big a transaction" ∧ s.room < 7

/-- **A directory is a finite map**, after any sequence of links and removals. -/
theorem directory_is_finite_map {s₀ s : State} {dnum : Nat} {h : List DirEvent} (h₀ : HasDir s₀ dnum)
    (hr : DirRun dnum s₀ h s) :
    DIRENT ∣ (s.dinode dnum).size ∧ (slots (s.contents dnum)).Distinct ∧
    ∀ dp, s.Holds dp → (s.itable dp).inum = dnum → ∀ name,
      LooksUp s dnum dp name (latest (s₀.names dnum) h name) ∧
      ∀ inum, 0 < s.outstanding → 0 < inum → inum < 65536 → Links s dnum dp name inum := by
  obtain ⟨hdir, hmap⟩ := hr.map h₀
  have hwhole := hdir.directory.whole
  rw [State.contents, Dinode.length_bytes] at hwhole
  refine ⟨hwhole, hdir.directory.distinct, fun dp hh hi name => ⟨?_, fun inum ho h0 hlt => ?_⟩⟩
  · have hlook := dirlookup_spec (hdir.dirAt hh hi) hdir.directory.distinct name
    rw [← hmap, State.names]
    cases hl : (slots (s.contents dnum)).lookup (key name) with
    | none =>
      rw [hl] at hlook
      exact hlook
    | some inum =>
      rw [hl] at hlook
      obtain ⟨i, hslot, hlook⟩ := hlook
      refine ⟨i, hslot, ?_⟩
      cases he : dirlookup dp name s with
      | error msg =>
        rw [he] at hlook
        exact .inr ⟨by rw [hlook.1], hlook.2⟩
      | ok p =>
        rw [he] at hlook
        obtain ⟨ip, hp, hf⟩ := hlook
        exact .inl ⟨ip, p.2, by rw [← hp], hf.inum⟩
  · have hlink := dirlink_spec name (hdir.dirAt hh hi) hdir.directory.distinct ho h0 hlt
    cases he : dirlink dp name inum s with
    | error msg =>
      rw [he] at hlink
      rcases hlink with ⟨rfl, hu⟩ | ⟨rfl, hroom⟩
      · exact .inr (.inl ⟨he, hu⟩)
      · exact .inr (.inr ⟨he, hroom⟩)
    | ok p =>
      rw [he] at hlink
      obtain ⟨c', hout⟩ := hlink
      refine .inl ⟨p.1, p.2, he, ?_⟩
      by_cases href : Refused s dp (s.contents dnum) name
      · obtain ⟨hr, hc'⟩ := hout.refused href
        have hc := (hout.dir.hasDir (hout.sameInum.trans hi) (hc' ▸ hdir.directory.distinct)).2
        exact ⟨.inl hr, ⟨fun _ => href, fun _ => hr⟩, fun _ => hc.trans hc'⟩
      · have hr := (hout.linked href).1
        exact ⟨.inr hr, ⟨fun h1 => absurd (hr.symm.trans h1) (by decide), fun h1 => absurd h1 href⟩,
          fun h1 => absurd (hr.symm.trans h1) (by decide)⟩

/-- The root directory of an image, held by a process. -/
theorem Booted.hasDir_root {files : List Mkfs.Input} {t : Mkfs.Image} (h : Booted t s) (hm : Mkfs.Made files t)
    (hfit : Mkfs.Fits files) (hn : (files.length + 2) % 64 ≠ 0) (hnames : ((rootNames files).map Prod.fst).Nodup) :
    HasDir (s.working 1) 1 ∧ (s.working 1).Holds 0 ∧
      ∃ n, slots ((s.working 1).contents 1) = (rootNames files).map some ++ List.replicate n none := by
  have hd : (s.working 1).dinode 1 = Mkfs.sb.inode s.block 1 := h.working_dinode 1 1
  have hcont : (s.working 1).contents 1 = (Mkfs.sb.inode s.block 1).bytes s.block := by
    rw [State.contents, hd]
    rfl
  have htype : (Mkfs.sb.inode s.block 1).type = T_DIR := by rw [h.inode (by decide), type_root hm]
  have hinum : 1 < s.sb.ninodes := by
    rw [h.sb]
    decide
  obtain ⟨n, hslots⟩ := h.slots_root hm hfit hn
  refine ⟨⟨h.working_consistent hm hfit hn 1, hinum, hd ▸ htype, ?_, ?_⟩, ⟨Nat.one_pos, rfl, hinum, ?_⟩, n, ?_⟩
  · rw [hcont, Dinode.length_bytes, h.inode (by decide), size_root hm]
    exact Dvd.dvd.mul_left (by decide) _
  · rw [hcont, hslots]
    exact distinct_names hnames n
  · change (s.sb.inode s.block 1).type ≠ 0
    rw [h.sb, htype]
    decide
  · rw [hcont, hslots]

/-- The root directory of a small image: "hi" is inode 2, and is linked again as "x". -/
theorem directory_is_finite_map_hello : ∃ (s s' : State) (r : Int), LooksUp s 1 0 [104, 105] (some 2) ∧
    dirlink 0 [120] 2 s = .ok (r, s') ∧ DIRENT ∣ (s'.dinode 1).size ∧ (slots (s'.contents 1)).Distinct := by
  obtain ⟨t, s, -, -, hb, hm, -⟩ := boot_hello
  obtain ⟨hdir, hh, n, hslots⟩ := hb.hasDir_root hm ⟨by decide, by decide, by decide, by decide⟩ (by decide) (by decide)
  obtain ⟨-, -, hmap⟩ := directory_is_finite_map hdir .nil
  obtain ⟨hlook, -⟩ := hmap 0 hh rfl [104, 105]
  have hname : (s.working 1).names 1 [104, 105] = some 2 := by
    rw [State.names, hslots]
    rfl
  rw [latest, hname] at hlook
  rcases (hmap 0 hh rfl [120]).2 2 Nat.one_pos (by decide) (by decide) with ⟨r, s', hlink, -⟩ | ⟨-, hnone⟩ | ⟨-, hroom⟩
  · obtain ⟨hwhole, hdist, -⟩ := directory_is_finite_map hdir
      (.cons .nil (.link hh rfl Nat.one_pos (by decide) (by decide) hlink))
    exact ⟨_, s', r, hlook, hlink, hwhole, hdist⟩
  · -- only entry 0 is used
    have hused := hb.working_zero 1 (State.unused_none.mp hnone 1)
    exact absurd hused (by decide)
  · have hfull : (s.working 1).room = 29 := by
      change min LOGSIZE (s.sb.nlog - 1) - s.lh.length = 29
      rw [hb.sb, hb.lh]
      decide
    omega

end Xv6.Fs
