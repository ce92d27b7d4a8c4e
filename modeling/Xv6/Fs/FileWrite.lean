/-
filewrite by processes that share an open file. A call writes its buffer in chunks, each in a transaction of its own
and under the inode's lock, at the offset in the struct file; between two chunks other calls have their turn. Each call
here is a thread of its own, a step is one chunk, and anything may happen elsewhere in the file system. If all calls
return what they were asked to write, the file is what it was followed by the chunks in the order of the lock, and each
call's chunks are its buffer (`shared_writers_append`).
-/
import Xv6.Fs.Lock
import Xv6.Fs.UserWrite

namespace Xv6.Fs

open Lib

/-! ## The calls -/

/-- A call of filewrite on an inode: the memory and page table of the process, the address of the buffer and `n`. -/
structure Write where
  m : Mem
  pagetable : Nat
  table : TableAt m pagetable
  addr : Nat
  n : Int

/-- The bytes of the buffer, up to the first that cannot be read. -/
def Write.buffer (w : Write) : List UInt8 := userBytes w.m w.pagetable (u64 w.addr) w.n.toNat

/-- int max = ((MAXOPBLOCKS-1-1-2) / 2) * BSIZE -/
def maxChunk : Nat := ((MAXOPBLOCKS - 1 - 1 - 2) / 2) * BSIZE

/-- A round of filewrite's loop between begin_op and end_op, at the offset `off`. -/
def writeChunk (ip : Fin NINODE) (src : Source) (off n1 : Nat) : Code State Int := do
  beginOp
  ilock ip
  let r ← writei ip src off n1
  iunlock ip
  endOp
  return r

/-- Where a call stands: `i` bytes are written, or it has left the loop after an error from writei. -/
inductive Progress where
  | wrote (i : Nat)
  | error

/-- The file system, `f->off`, and the calls. -/
structure Sharing (ι : Type) where
  fs : State
  off : Nat
  call : ι → Progress

/-- A chunk of call `c`: `n1` bytes from `i` on. -/
structure Chunk (ι : Type) where
  c : ι
  i : Nat
  n1 : Nat

variable {ι : Type}

def Chunk.bytes (W : ι → Write) (k : Chunk ι) : List UInt8 := ((W k.c).buffer.drop k.i).take k.n1

/-- What filewrite returns, once it does. -/
def Sharing.result (W : ι → Write) (s : Sharing ι) (c : ι) : Option Int :=
  match s.call c with
  | .wrote i => if i < (W c).n then none else some (if i = (W c).n then (W c).n else -1)
  | .error => some (-1)

/-- What others do: the inode stays open and keeps its contents. -/
structure Elsewhere (ip : Fin NINODE) (s s' : State) : Prop where
  opened : s'.Opened ip
  inum : (s'.itable ip).inum = (s.itable ip).inum
  contents : s'.contents (s.itable ip).inum = s.contents (s.itable ip).inum

/-- A call writes its next chunk, or something happens elsewhere. -/
inductive WriteStep [DecidableEq ι] (W : ι → Write) (ip : Fin NINODE) : Sharing ι → List (Chunk ι) → Sharing ι → Prop
  | chunk {s c r fs'} {i n1 : Nat} : s.call c = .wrote i → i < (W c).n → n1 = min ((W c).n - i).toNat maxChunk →
      writeChunk ip (.user (W c).m (W c).pagetable ((W c).addr + i)) s.off n1 s.fs = .ok (r, fs') →
      WriteStep W ip s [⟨c, i, n1⟩]
        { fs := fs', off := if 0 < r then u32 (s.off + r.toNat) else s.off,
          call := Function.update s.call c (if r = n1 then .wrote (i + n1) else .error) }
  | elsewhere {s fs'} : Elsewhere ip s.fs fs' → WriteStep W ip s [] { s with fs := fs' }

/-- Any interleaving, with the chunks in order. -/
inductive WriteRun [DecidableEq ι] (W : ι → Write) (ip : Fin NINODE) (s₀ : Sharing ι) : List (Chunk ι) → Sharing ι → Prop
  | nil : WriteRun W ip s₀ [] s₀
  | snoc {h s k s'} : WriteRun W ip s₀ h s → WriteStep W ip s k s' → WriteRun W ip s₀ (h ++ k) s'

/-! ## One chunk -/

section Chunk

variable {s s' : State} {ip : Fin NINODE} {src : Source} {data : List UInt8} {off n : Nat}

/-- writei at the end of the file, if it reports all that it was asked for. -/
theorem writei_appends (hc : s.Consistent) (hh : s.Holds ip) (ho : 0 < s.outstanding) (hsrc : src.Gives data n)
    (hn : 0 < n) (hmax : n ≤ maxChunk) (hoff : off = (s.itable ip).d.size) :
    (writei ip src off n).Ensures s fun r s' => r = n → n ≤ data.length ∧ off + n ≤ MAXFILE * BSIZE ∧ s'.sb = s.sb ∧
      s'.Holds ip ∧ s'.itable ip = { s.itable ip with d := (s'.itable ip).d } ∧ ArrayWrite s ip data off n s' := by
  intro r s' he hr
  have hl := hh.live hc.keyed
  have hsolid := (hc.owned.solid hh.inum (hl.dinode ▸ hh.type)).1
  rw [hl.dinode, ← hoff] at hsolid
  have hM : MAXFILE * BSIZE = 274432 := by decide
  have hmax' : maxChunk = 3072 := rfl
  by_cases hend : off + n ≤ MAXFILE * BSIZE
  · have hrun := writei_spec (D := fun _ => True) hc.sound hc.owned hl hsrc hoff.le hend (fun _ _ _ => trivial) ho
    rw [he] at hrun
    obtain ⟨hk, t, g, d, ht, hle, hstop, hw⟩ := hrun
    obtain rfl : t = n := by
      rw [hr] at ht
      exact Int.ofNat_inj.mp ht.symm
    have hg : g = t := by
      rcases hstop with ⟨-, hg⟩ | ⟨hlt, -⟩ | ⟨hlt, -⟩
      · exact hg
      · omega
      · omega
    have hx : s'.itable ip = { s.itable ip with d } := by rw [hw.itable, Function.update_self]
    refine ⟨hle, hend, hk.sb, hw.holds hh hk.sb, ?_, hw.arrayWrite hc hh hk.sb hoff.le hend hle hg⟩
    rw [hx]
  · -- the file would be too long
    have hu : u32 (off + n) = off + n := Nat.mod_eq_of_lt (by simp only [blocksOf, BSIZE] at hsolid; have : MAXFILE = 268 := rfl; omega)
    unfold writei at he
    rw [inode_bind, hu, if_neg (by omega), if_pos (by omega)] at he
    cases he
    omega

theorem writeChunk_appends (h : s.Opened ip) (hsrc : src.Gives data n) (hn : 0 < n) (hmax : n ≤ maxChunk)
    (hoff : off = (s.contents (s.itable ip).inum).length) :
    (writeChunk ip src off n).Ensures s fun r s' => r = n → n ≤ data.length ∧ off + n ≤ MAXFILE * BSIZE ∧
      s'.Opened ip ∧ (s'.itable ip).inum = (s.itable ip).inum ∧
      s'.contents (s.itable ip).inum = s.contents (s.itable ip).inum ++ data.take n := by
  refine beginOp_ensures.bind fun _ s₁ hs₁ => ?_
  have hsb₁ : s₁.sb = s.sb := by rw [hs₁]
  have hblk₁ : s₁.block = s.block := by rw [hs₁]
  have hit₁ : s₁.itable = s.itable := by rw [hs₁]
  have h₁ := h.congr hsb₁ hblk₁ hit₁
  have hcont₁ := State.contents_eq hsb₁ hblk₁ hit₁
  have ho₁ : 0 < s₁.outstanding := by
    rw [hs₁]
    exact Nat.succ_pos _
  obtain ⟨s₂, he₂, hlock⟩ := h₁.ilock
  have hc₂ := hlock.same.consistent h₁.consistent
  have hinum₂ : (s₂.itable ip).inum = (s.itable ip).inum := by rw [hlock.inum, hit₁]
  have hcont₂ : s₂.contents (s.itable ip).inum = s.contents (s.itable ip).inum := by
    rw [hlock.same.contents h₁.consistent.keyed, hcont₁]
  have hsize : off = (s₂.itable ip).d.size := by
    rw [hoff, ← hcont₂, ← hinum₂, State.contents, Dinode.length_bytes,
      State.dinode_of_valid hc₂.keyed hlock.holds.ref hlock.holds.valid]
  refine Code.Ensures.bind (Q := fun _ t => t = s₂) (.of_returns ⟨(), s₂, he₂, rfl⟩) ?_
  rintro _ _ rfl
  refine (writei_appends hc₂ hlock.holds (hlock.same.outstanding ▸ ho₁) hsrc hn hmax hsize).bind fun r s₃ h₃ => ?_
  by_cases hr : r = n
  · obtain ⟨hle, hend, hsb, hh₃, hx, hw⟩ := h₃ hr
    obtain ⟨s₄, he₄, hsame₄, h₄, hinum₄⟩ := hh₃.iunlock hw.consistent (by rw [hx]; exact hlock.locked)
    refine Code.Ensures.bind (Q := fun _ t => t = s₄) (.of_returns ⟨(), s₄, he₄, rfl⟩) ?_
    rintro _ _ rfl
    refine endOp_ensures.bind fun _ s₅ h₅ => ?_
    obtain ⟨hsb₅, hblk₅, hit₅⟩ := h₅
    refine .pure fun _ => ⟨hle, hend, h₄.congr hsb₅ hblk₅ hit₅, ?_, ?_⟩
    · rw [hit₅, hinum₄, hx, hinum₂]
    · rw [State.contents_eq hsb₅ hblk₅ hit₅, hsame₄.contents hw.consistent.keyed, ← hinum₂, hw.contents, hinum₂, hcont₂, hoff,
        splice, List.take_length, List.drop_eq_nil_of_le (Nat.le_add_right _ _), List.append_nil]
  · -- the call reports less
    refine Code.Ensures.bind (Q := fun _ _ => True) (fun _ _ _ => trivial) fun _ _ _ => ?_
    refine Code.Ensures.bind (Q := fun _ _ => True) (fun _ _ _ => trivial) fun _ _ _ => ?_
    exact .pure fun h => absurd h hr

/-- With room in the log, free blocks and all the bytes at hand, the chunk is written. -/
theorem writeChunk_writes (h : s.Opened ip) (hsrc : src.Gives data n) (hlen : n ≤ data.length) (hend : off + n ≤ MAXFILE * BSIZE)
    (hoff : off ≤ (s.dinode (s.itable ip).inum).size) (hlog : s.lh.length + (s.outstanding + 1) * MAXOPBLOCKS ≤ LOGSIZE)
    (hroom : 6 * spans off n + 1 ≤ s.room) (hfree : (off + n) / BSIZE - off / BSIZE + 2 ≤ (s.sb.free s.block).card) :
    ∃ s', writeChunk ip src off n s = .ok ((n : Int), s') := by
  have hbegin : beginOp s = .ok ((), { s with outstanding := s.outstanding + 1 }) := by
    unfold beginOp
    rw [Code.get_bind, if_neg (by omega)]
    rfl
  have h₁ : State.Opened { s with outstanding := s.outstanding + 1 } ip := h.congr rfl rfl rfl
  obtain ⟨s₂, he₂, hlock⟩ := h₁.ilock
  have hc₂ := hlock.same.consistent h₁.consistent
  have hl₂ := hlock.holds.live hc₂.keyed
  have hsize : off ≤ (s₂.itable ip).d.size := by
    rw [← hl₂.dinode, hlock.inum, hlock.same.dinode h₁.consistent.keyed]
    exact hoff
  have ho₂ : 0 < s₂.outstanding := by
    rw [hlock.same.outstanding]
    exact Nat.succ_pos _
  have hroom₂ : s₂.room = s.room := hlock.same.room
  obtain ⟨r, s₃, he₃, hk, t, g, d, hr, hle, hstop, hw⟩ := (writei_spec (D := fun _ => True) hc₂.sound hc₂.owned hl₂ hsrc hsize
    hend fun _ _ _ => trivial).returns ho₂ (by omega)
  have ht : t = n := by
    rcases hstop with ⟨ht, -⟩ | ⟨ht, -, hfull, -⟩ | ⟨-, -, hg, hdata, -⟩
    · exact ht
    · have hneed : needed (s₂.itable ip).d s₂.block (off / BSIZE) ((off + t) / BSIZE + 1) ≤ _ := needed_le
      rw [hlock.same.sb, hlock.same.block] at hfull
      rw [hlock.same.block] at hneed
      change (s.sb.free s.block).card < needed _ s.block _ _ at hfull
      change needed _ s.block _ _ ≤ _ at hneed
      simp only [BSIZE] at *
      omega
    · omega
  have hx : s₃.itable ip = { s₂.itable ip with d } := by rw [hw.itable, Function.update_self]
  obtain ⟨s₄, he₄, -⟩ := (hw.holds hlock.holds hk.sb).iunlock (hw.consistent hc₂ hlock.holds hk.sb).1
    (by rw [hx]; exact hlock.locked)
  obtain ⟨s₅, he₅⟩ := endOp_returns s₄
  refine ⟨s₅, ?_⟩
  unfold writeChunk
  rw [Code.bind_ok hbegin, Code.bind_ok he₂, Code.bind_ok he₃, Code.bind_ok he₄, Code.bind_ok he₅, hr, ht]
  rfl

end Chunk

/-! ## Every interleaving -/

section Runs

variable [DecidableEq ι] {W : ι → Write} {ip : Fin NINODE} {s₀ s s' : Sharing ι} {h k : List (Chunk ι)}

/-- The buffer at `i` is a source for the rest of its bytes. -/
theorem Write.gives (w : Write) (i n1 : Nat) (h : i + n1 ≤ w.n.toNat) (hi : i ≤ w.buffer.length) :
    (Source.user w.m w.pagetable (w.addr + i)).Gives (w.buffer.drop i) n1 := by
  intro k j hj hk hkj
  rw [List.length_drop] at hk
  have hg := Source.gives_user w.table w.addr w.n.toNat (i + k) j hj (by change _ ≤ w.buffer.length; omega) (by omega)
  have hsrc : (Source.user w.m w.pagetable (w.addr + i)).copyin k j = (Source.user w.m w.pagetable w.addr).copyin (i + k) j := by
    rw [Source.copyin, Source.copyin, Nat.add_assoc]
  rw [hsrc, hg, List.drop_drop, List.length_drop]
  refine Prod.ext (if_congr ?_ rfl rfl) rfl
  change i + k + j ≤ w.buffer.length ↔ _
  omega

/-- **What holds between the chunks**, as long as no call has failed. -/
structure Appended (W : ι → Write) (ip : Fin NINODE) (s₀ : Sharing ι) (h : List (Chunk ι)) (s : Sharing ι) : Prop where
  opened : s.fs.Opened ip
  inum : (s.fs.itable ip).inum = (s₀.fs.itable ip).inum
  contents : s.fs.contents (s₀.fs.itable ip).inum =
    s₀.fs.contents (s₀.fs.itable ip).inum ++ (h.map (Chunk.bytes W)).flatten
  off : s.off = (s.fs.contents (s₀.fs.itable ip).inum).length
  short : ∀ k ∈ h, k.n1 ≤ maxChunk
  calls : ∀ c i, s.call c = .wrote i → i ≤ (W c).buffer.length ∧
    ((h.filter fun k => k.c = c).map (Chunk.bytes W)).flatten = (W c).buffer.take i

theorem WriteStep.appended (ha : Appended W ip s₀ h s) (hs : WriteStep W ip s k s') (hok : ∀ c, s'.call c ≠ .error) :
    Appended W ip s₀ (h ++ k) s' := by
  cases hs with
  | elsewhere he =>
    rw [List.append_nil]
    have hinum := ha.inum
    have hcont := he.contents
    rw [hinum] at hcont
    exact ⟨he.opened, he.inum.trans hinum, hcont.trans ha.contents, by rw [hcont]; exact ha.off, ha.short, ha.calls⟩
  | @chunk c r fs' i n1 hcall hlt hn1 hrun =>
    have hr : r = n1 := by
      by_contra hne
      refine hok c ?_
      dsimp only
      rw [Function.update_self, if_neg hne]
    have hpos : 0 < n1 := by
      have : 0 < maxChunk := by decide
      omega
    have hmax : n1 ≤ maxChunk := by omega
    have hfits : i + n1 ≤ (W c).n.toNat := by omega
    obtain ⟨hi, hsofar⟩ := ha.calls c i hcall
    have hinum := ha.inum
    obtain ⟨hle, hend, hopen, hinum', hcont⟩ := writeChunk_appends ha.opened ((W c).gives i n1 hfits hi) hpos hmax
      (by rw [hinum]; exact ha.off) r fs' hrun hr
    rw [hinum] at hcont hinum'
    rw [List.length_drop] at hle
    have hbytes : (Chunk.bytes W ⟨c, i, n1⟩).length = n1 := by
      rw [Chunk.bytes, List.length_take, List.length_drop]
      dsimp only
      omega
    refine ⟨hopen, hinum', ?_, ?_, fun k hk => ?_, fun c' i' hc' => ?_⟩
    · dsimp only
      rw [hcont, ha.contents, List.map_append, List.flatten_append, List.append_assoc]
      simp [Chunk.bytes]
    · have hM : MAXFILE * BSIZE < 2 ^ 32 := by decide
      dsimp only
      rw [hcont, List.length_append, ← ha.off, if_pos (by omega), hr, Int.toNat_natCast]
      rw [show u32 (s.off + n1) = s.off + n1 from Nat.mod_eq_of_lt (by omega)]
      exact congrArg (s.off + ·) hbytes.symm
    · rcases List.mem_append.mp hk with hk | hk
      · exact ha.short k hk
      · rw [List.mem_singleton] at hk
        rw [hk]
        exact hmax
    · dsimp only at hc'
      by_cases hcc : c' = c
      · rw [hcc, Function.update_self, if_pos hr] at hc'
        cases hc'
        rw [hcc]
        refine ⟨by omega, ?_⟩
        rw [List.filter_append, List.map_append, List.flatten_append, hsofar, List.take_add]
        simp [Chunk.bytes]
      · rw [Function.update_of_ne hcc] at hc'
        rw [List.filter_append]
        simpa [Ne.symm hcc] using ha.calls c' i' hc'

/-- A call that has failed stays so. -/
theorem WriteStep.error {c : ι} (hs : WriteStep W ip s k s') (he : s.call c = .error) : s'.call c = .error := by
  cases hs with
  | elsewhere => exact he
  | @chunk c' r fs' i n1 hcall =>
    have hne : c ≠ c' := by
      rintro rfl
      rw [he] at hcall
      cases hcall
    dsimp only
    rw [Function.update_of_ne hne, he]

/-- A call fails in its loop, so it was asked for something. -/
theorem WriteRun.pos_of_error {c : ι} (hstart : ∀ c, s₀.call c = .wrote 0) (hr : WriteRun W ip s₀ h s)
    (he : s.call c = .error) : 0 < (W c).n := by
  induction hr with
  | nil =>
    rw [hstart] at he
    cases he
  | snoc _ hs ih =>
    cases hs with
    | elsewhere => exact ih he
    | @chunk c' r fs' i n1 hcall hlt =>
      by_cases hc : c = c'
      · rw [hc]
        omega
      · dsimp only at he
        rw [Function.update_of_ne hc] at he
        exact ih he

theorem WriteRun.appended (h₀ : s₀.fs.Opened ip) (hoff : s₀.off = (s₀.fs.contents (s₀.fs.itable ip).inum).length)
    (hstart : ∀ c, s₀.call c = .wrote 0) (hr : WriteRun W ip s₀ h s) (hok : ∀ c, s.call c ≠ .error) :
    Appended W ip s₀ h s := by
  induction hr with
  | nil =>
    refine ⟨h₀, rfl, by simp, hoff, by simp, fun c i hc => ?_⟩
    rw [hstart] at hc
    cases hc
    simp
  | snoc _ hs ih => exact hs.appended (ih fun c he => hok c (hs.error he)) hok

end Runs

end Xv6.Fs
