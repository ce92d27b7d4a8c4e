/-
Where a request is. Requests are numbered as they are posted; a number goes from the
avail ring to the device, through its two lists, to the used ring and to virtio_disk_intr,
and is in one of these places at any time (`Flow.jobs`). A request not yet handled has its
call in flight (`Flow.live`), so at most eight are on the way and neither ring is overrun.
`b->disk` is 1 for exactly the calls whose request is not handled (`Flow.flag`).

One lemma for each step that moves a request.
-/
import Xv6.Lib.Feed
import Xv6.Virtio.Table

namespace Xv6.Virtio

open Lib Lib.Feed

set_option linter.unusedSectionVars false

variable {P B D : Type} [DecidableEq P] [DecidableEq B]

/-- The numbers of the requests virtio_disk_intr has handled. -/
def Hist.past (h : Hist P B) : List Nat := (h.completed.take h.handled).map Job.num

structure Flow (F : P → Option (Flight B)) (d : Disk B) (flag : B → Bool) (v : Device) (h : Hist P B) : Prop where
  availIdx : d.availIdx = .ofNat h.posted.length
  avail : Shows NUM d.availRing (h.posted.map fun r => r.2.idx.i0) v.fetched
  fetched : v.fetched ≤ h.posted.length
  usedIdx : d.usedIdx = .ofNat h.completed.length
  used : Shows NUM d.usedRing (h.completed.map Job.head) h.handled
  seenIdx : d.seenIdx = .ofNat h.handled
  handled : h.handled ≤ h.completed.length
  /-- every request taken is in one place -/
  jobs : ((v.taken ++ v.done ++ h.completed).map Job.num).Perm (List.range v.fetched)
  head : ∀ j ∈ v.taken ++ v.done ++ h.completed, ∃ p f, h.posted[j.num]? = some (p, f) ∧ j.head = f.idx.i0
  num_le : ∀ p f, F p = some f → f.num ≤ h.posted.length
  posted : ∀ p f, F p = some f → f.num < h.posted.length → h.posted[f.num]? = some (p, f)
  /-- the head of a request about to be posted is in the ring -/
  ready : ∀ p f, F p = some f → f.num = h.posted.length → d.availRing (f.num % NUM) = f.idx.i0
  live : ∀ n p f, h.posted[n]? = some (p, f) → n ∉ h.past → F p = some f ∧ f.num = n
  status : ∀ j ∈ v.done ++ h.completed.drop h.handled, (d.info j.head).status = 0
  flag : ∀ p f, F p = some f → (flag f.call.buf = true ↔ f.num ∉ h.past)

namespace Flow

variable {F F' : P → Option (Flight B)} {d d' : Disk B} {flag flag' : B → Bool} {v : Device} {h : Hist P B} {p : P}
  {f : Flight B} {j : Job} {n : Nat}

theorem nodup (w : Flow F d flag v h) : ((v.taken ++ v.done ++ h.completed).map Job.num).Nodup :=
  w.jobs.nodup_iff.mpr List.nodup_range

theorem num_lt (w : Flow F d flag v h) (hj : j ∈ v.taken ++ v.done ++ h.completed) : j.num < v.fetched :=
  List.mem_range.mp (w.jobs.mem_iff.mp (List.mem_map_of_mem hj))

/-- What is not taken is not handled. -/
theorem not_past (w : Flow F d flag v h) (hn : v.fetched ≤ n) : n ∉ h.past := by
  intro hm
  obtain ⟨j, hj, rfl⟩ := List.mem_map.mp hm
  have := w.num_lt (List.mem_append_right _ (List.mem_of_mem_take hj))
  omega

/-- Nor is what is on the way. -/
theorem job_not_past (w : Flow F d flag v h) (hj : j ∈ v.taken ++ v.done ++ h.completed.drop h.handled) :
    j.num ∉ h.past := by
  have hn := w.nodup
  rw [← List.take_append_drop h.handled h.completed] at hn
  have hp : (v.taken ++ v.done ++ (h.completed.take h.handled ++ h.completed.drop h.handled)).Perm
      (h.completed.take h.handled ++ (v.taken ++ v.done ++ h.completed.drop h.handled)) := by
    rw [← List.append_assoc, ← List.append_assoc]
    exact List.perm_append_comm.append_right _
  rw [(hp.map Job.num).nodup_iff, List.map_append, List.nodup_append] at hn
  exact fun hm => hn.2.2 _ hm _ (List.mem_map_of_mem hj) rfl

/-- The call of a request on the way. -/
theorem flight_of_job (w : Flow F d flag v h) (hj : j ∈ v.taken ++ v.done ++ h.completed.drop h.handled) :
    ∃ p f, h.posted[j.num]? = some (p, f) ∧ j.head = f.idx.i0 ∧ F p = some f ∧ f.num = j.num := by
  have hall : j ∈ v.taken ++ v.done ++ h.completed := by
    rcases List.mem_append.mp hj with hj | hj
    · exact List.mem_append_left _ hj
    · exact List.mem_append_right _ (List.mem_of_mem_drop hj)
  obtain ⟨p, f, hpost, hhead⟩ := w.head j hall
  exact ⟨p, f, hpost, hhead, w.live _ p f hpost (w.job_not_past hj)⟩

/-- Requests on the way have different heads. -/
theorem room (w : Flow F d flag v h) (t : Table F d) {L X : List Nat} (hL : L.Nodup)
    (hlive : ∀ n ∈ L, n < h.posted.length ∧ n ∉ h.past)
    (hX : ∀ n ∈ L, ∀ p f, h.posted[n]? = some (p, f) → f.idx.i0 ∈ X) : L.length ≤ X.length := by
  have hflight : ∀ n ∈ L, ∃ p f, h.posted[n]? = some (p, f) ∧ F p = some f ∧ f.num = n := by
    intro n hn
    obtain ⟨hlt, hpast⟩ := hlive n hn
    have hget := List.getElem?_eq_getElem hlt
    exact ⟨_, _, hget, w.live n _ _ hget hpast⟩
  let head (n : Nat) : Nat := ((h.posted[n]?).map fun r => r.2.idx.i0).getD 0
  have hinj : (L.map head).Nodup := by
    refine List.Nodup.map_on (fun n hn m hm he => ?_) hL
    obtain ⟨p, f, hpf, hFp, rfl⟩ := hflight n hn
    obtain ⟨q, g, hqg, hFq, rfl⟩ := hflight m hm
    simp only [head, hpf, hqg, Option.map_some, Option.getD_some] at he
    have hpq := t.disjoint p q f g f.idx.i0 hFp hFq (by simp [Idx.mem_toList]) (by simp [Idx.mem_toList, he])
    subst hpq
    rw [hFp] at hFq
    cases hFq
    rfl
  have hsub : L.map head ⊆ X := by
    intro i hi
    obtain ⟨n, hn, rfl⟩ := List.mem_map.mp hi
    obtain ⟨p, f, hpf, -⟩ := hflight n hn
    simp only [head, hpf, Option.map_some, Option.getD_some]
    exact hX n hn p f hpf
  have hle := (hinj.subperm hsub).length_le
  rwa [List.length_map] at hle

/-- The requests the device has not taken, heads at the indices `X`. -/
theorem posted_le (w : Flow F d flag v h) (t : Table F d) {X : List Nat}
    (hX : ∀ p f, F p = some f → f.idx.i0 ∈ X) : h.posted.length ≤ v.fetched + X.length := by
  have hle := w.room t (X := X) (List.nodup_range' (s := v.fetched) (n := h.posted.length - v.fetched))
    (fun n hn => ?_) fun n hn p f hpf => ?_
  · rw [List.length_range'] at hle
    omega
  · rw [List.mem_range'_1] at hn
    exact ⟨by omega, w.not_past hn.1⟩
  · rw [List.mem_range'_1] at hn
    exact hX p f (w.live n p f hpf (w.not_past hn.1)).1

theorem head_lt (t : Table F d) (hp : F p = some f) : f.idx.i0 ∈ List.range NUM :=
  List.mem_range.mpr (t.lt p f hp _ (by simp [Idx.mem_toList]))

/-- With a descriptor free there is room in the avail ring. -/
theorem avail_room (w : Flow F d flag v h) (t : Table F d) {i : Nat} (hi : i < NUM) (hfree : d.free i = true) :
    h.posted.length < v.fetched + NUM := by
  have hle := w.posted_le t (X := (List.range NUM).erase i) fun p f hp => ?_
  · rw [List.length_erase_of_mem (List.mem_range.mpr hi), List.length_range] at hle
    have : NUM = 8 := rfl
    omega
  · have hne : f.idx.i0 ≠ i := by
      rintro rfl
      rw [t.not_free hp (by simp [Idx.mem_toList])] at hfree
      cases hfree
    exact (List.mem_erase_of_ne hne).mpr (head_lt t hp)

/-- No more than `NUM` requests wait for the device or for virtio_disk_intr. -/
theorem waiting_le (w : Flow F d flag v h) (t : Table F d) {W : List Job}
    (hsub : W.Sublist (v.taken ++ v.done ++ h.completed))
    (hwait : ∀ i ∈ W, i ∈ v.taken ++ v.done ++ h.completed.drop h.handled) : W.length ≤ NUM := by
  have hle := w.room t (X := List.range NUM) ((hsub.map Job.num).nodup w.nodup) (fun n hn => ?_) fun n hn p f hpf => ?_
  · rwa [List.length_map, List.length_range] at hle
  · obtain ⟨i, hi, rfl⟩ := List.mem_map.mp hn
    exact ⟨(w.num_lt (hsub.subset hi)).trans_le w.fetched, w.job_not_past (hwait i hi)⟩
  · obtain ⟨i, hi, rfl⟩ := List.mem_map.mp hn
    exact head_lt t (w.live _ p f hpf (w.job_not_past (hwait i hi))).1

theorem mem_waiting_of_done (hj : j ∈ v.done) : j ∈ v.taken ++ v.done ++ h.completed.drop h.handled :=
  List.mem_append_left _ (List.mem_append_right _ hj)

/-- There is room in the used ring for a request carried out. -/
theorem used_room (w : Flow F d flag v h) (t : Table F d) (hj : j ∈ v.done) :
    h.completed.length < h.handled + NUM := by
  have hle := w.waiting_le t (W := [j] ++ h.completed.drop h.handled)
    ((List.singleton_sublist.mpr (List.mem_append_right _ hj)).append (List.drop_sublist _ _)) fun i hi => ?_
  · rw [List.length_append, List.length_singleton, List.length_drop] at hle
    omega
  · rcases List.mem_append.mp hi with hi | hi
    · rw [List.mem_singleton.mp hi]
      exact mem_waiting_of_done hj
    · exact List.mem_append_right _ hi

/-- The indices of the used ring are equal exactly when every completion has been handled. -/
theorem seenIdx_eq_iff (w : Flow F d flag v h) (t : Table F d) :
    d.seenIdx = d.usedIdx ↔ h.handled = h.completed.length := by
  have hle := w.waiting_le t (W := h.completed.drop h.handled)
    ((List.drop_sublist _ _).trans (List.sublist_append_right _ _)) fun i hi => List.mem_append_right _ hi
  rw [List.length_drop, NUM] at hle
  rw [w.seenIdx, w.usedIdx]
  exact ofNat_eq_iff w.handled (by omega)

/-- The device sees an empty avail ring exactly when it has taken every request. -/
theorem availIdx_eq_iff (w : Flow F d flag v h) (t : Table F d) :
    .ofNat v.fetched = d.availIdx ↔ v.fetched = h.posted.length := by
  have hle := w.posted_le t (X := List.range NUM) fun p f hp => head_lt t hp
  rw [List.length_range, NUM] at hle
  rw [w.availIdx]
  exact ofNat_eq_iff w.fetched (by omega)

/-! ## The steps -/

/-- The rings and the status bytes are all that matters of the disk. -/
theorem frame (w : Flow F d flag v h)
    (hidx : d'.availIdx = d.availIdx ∧ d'.availRing = d.availRing ∧ d'.usedIdx = d.usedIdx ∧ d'.usedRing = d.usedRing ∧
      d'.seenIdx = d.seenIdx) (hinfo : ∀ i, (d'.info i).status = (d.info i).status) : Flow F d' flag v h := by
  obtain ⟨havail, hring, hused, hurings, hseen⟩ := hidx
  exact ⟨havail.trans w.availIdx, hring ▸ w.avail, w.fetched, hused.trans w.usedIdx, hurings ▸ w.used,
    hseen.trans w.seenIdx, w.handled, w.jobs, w.head, w.num_le, w.posted, hring ▸ w.ready, w.live,
    fun i hi => (hinfo _).trans (w.status i hi), w.flag⟩

/-- A call gets its descriptors and puts its head into the ring. -/
theorem form (w : Flow F d flag v h) (t : Table F d) (hp : F p = none) (hnum : f.num = h.posted.length)
    (hnone : ∀ q g, F q = some g → g.num ≠ h.posted.length) (hother : ∀ q g, F q = some g → g.call.buf ≠ f.call.buf)
    (hi : f.idx.i0 < NUM) (hfree : d.free f.idx.i0 = true)
    (hring : d'.availRing = Function.update d.availRing (h.posted.length % NUM) f.idx.i0)
    (hidx : d'.availIdx = d.availIdx ∧ d'.usedIdx = d.usedIdx ∧ d'.usedRing = d.usedRing ∧ d'.seenIdx = d.seenIdx)
    (hinfo : ∀ i, i ≠ f.idx.i0 → d'.info i = d.info i) :
    Flow (Function.update F p (some f)) d' (Function.update flag f.call.buf true) v h := by
  obtain ⟨havail, hused, hurings, hseen⟩ := hidx
  have hcases : ∀ q g, Function.update F p (some f) q = some g → q = p ∧ g = f ∨ q ≠ p ∧ F q = some g := by
    intro q g hq
    by_cases hqp : q = p
    · rw [hqp, Function.update_self] at hq
      exact .inl ⟨hqp, (Option.some.inj hq).symm⟩
    · rw [Function.update_of_ne hqp] at hq
      exact .inr ⟨hqp, hq⟩
  refine ⟨havail.trans w.availIdx, ?_, w.fetched, hused.trans w.usedIdx, hurings ▸ w.used, hseen.trans w.seenIdx, w.handled,
    w.jobs, w.head, fun q g hq => ?_, fun q g hq hlt => ?_, fun q g hq heq => ?_, fun n q g hn hpast => ?_,
    fun i hi' => ?_, fun q g hq => ?_⟩
  · have hshow := w.avail.update f.idx.i0 (by simpa using w.avail_room t hi hfree)
    rw [List.length_map] at hshow
    exact hring ▸ hshow
  · rcases hcases q g hq with ⟨rfl, rfl⟩ | ⟨-, hq⟩
    · exact hnum.le
    · exact w.num_le q g hq
  · rcases hcases q g hq with ⟨rfl, rfl⟩ | ⟨-, hq⟩
    · omega
    · exact w.posted q g hq hlt
  · rcases hcases q g hq with ⟨rfl, rfl⟩ | ⟨-, hq⟩
    · rw [hring, hnum, Function.update_self]
    · exact absurd heq (hnone q g hq)
  · obtain ⟨hq, hgn⟩ := w.live n q g hn hpast
    have hne : q ≠ p := fun he => by rw [he, hp] at hq; cases hq
    exact ⟨by rwa [Function.update_of_ne hne], hgn⟩
  · obtain ⟨q, g, -, hhead, hq, -⟩ := w.flight_of_job (j := i) (by simpa [or_assoc] using .inr (List.mem_append.mp hi'))
    have hne : i.head ≠ f.idx.i0 := by
      intro he
      have := t.not_free hq (show g.idx.i0 ∈ g.idx.toList by simp [Idx.mem_toList])
      rw [← hhead, he, hfree] at this
      cases this
    rw [hinfo _ hne]
    exact w.status i hi'
  · rcases hcases q g hq with ⟨rfl, rfl⟩ | ⟨-, hq⟩
    · rw [Function.update_self]
      exact iff_of_true rfl (w.not_past (by rw [hnum]; exact w.fetched))
    · rw [Function.update_of_ne (hother q g hq)]
      exact w.flag q g hq

/-- The request is posted. -/
theorem post (w : Flow F d flag v h) (hp : F p = some f) (hnum : f.num = h.posted.length)
    (hother : ∀ q g, F q = some g → g.num = h.posted.length → q = p) :
    Flow F { d with availIdx := d.availIdx + 1 } flag v { h with posted := h.posted ++ [(p, f)] } := by
  have hlen : (h.posted ++ [(p, f)]).length = h.posted.length + 1 := by simp
  have hold : ∀ {n : Nat} {r : P × Flight B}, h.posted[n]? = some r → (h.posted ++ [(p, f)])[n]? = some r := by
    intro n r hn
    rwa [List.getElem?_append_left (List.getElem?_eq_some_iff.mp hn).1]
  refine ⟨?_, ?_, ?_, w.usedIdx, w.used, w.seenIdx, w.handled, w.jobs, fun i hi => ?_, fun q g hq => ?_,
    fun q g hq hlt => ?_, fun q g hq heq => ?_, fun n q g hn hpast => ?_, w.status, w.flag⟩
  · simp only [hlen, ofNat_succ, w.availIdx]
  · simp only [List.map_append, List.map_cons, List.map_nil]
    refine w.avail.push ?_
    rw [List.length_map, ← hnum]
    exact w.ready p f hp hnum
  · rw [hlen]
    exact w.fetched.trans (Nat.le_succ _)
  · obtain ⟨q, g, hpost, hhead⟩ := w.head i hi
    exact ⟨q, g, hold hpost, hhead⟩
  · rw [hlen]
    exact (w.num_le q g hq).trans (Nat.le_succ _)
  · rw [hlen] at hlt
    rcases Nat.lt_succ_iff_lt_or_eq.mp hlt with hlt | heq
    · exact hold (w.posted q g hq hlt)
    · obtain rfl := hother q g hq heq
      rw [hp] at hq
      cases hq
      rw [heq]
      simp
  · rw [hlen] at heq
    have := w.num_le q g hq
    omega
  · rcases Nat.lt_or_ge n h.posted.length with hlt | hge
    · rw [List.getElem?_append_left hlt] at hn
      exact w.live n q g hn hpast
    · have hlt : n < h.posted.length + 1 := hlen ▸ (List.getElem?_eq_some_iff.mp hn).1
      obtain rfl : n = h.posted.length := by omega
      simp only [List.getElem?_concat_length, Option.some.injEq, Prod.mk.injEq] at hn
      obtain ⟨rfl, rfl⟩ := hn
      exact ⟨hp, hnum⟩

/-- The call is over. -/
theorem finish (w : Flow F d flag v h) (hp : F p = some f) (hflag : flag f.call.buf = false)
    (hidx : d'.availIdx = d.availIdx ∧ d'.availRing = d.availRing ∧ d'.usedIdx = d.usedIdx ∧ d'.usedRing = d.usedRing ∧
      d'.seenIdx = d.seenIdx) (hinfo : ∀ i, (d'.info i).status = (d.info i).status) :
    Flow (Function.update F p none) d' flag v h := by
  have w := w.frame hidx hinfo
  have hof : ∀ q g, Function.update F p none q = some g → F q = some g := by
    intro q g hq
    by_cases hqp : q = p
    · rw [hqp, Function.update_self] at hq
      cases hq
    · rwa [Function.update_of_ne hqp] at hq
  have hpast : f.num ∈ h.past := by
    by_contra hn
    rw [(w.flag p f hp).mpr hn] at hflag
    cases hflag
  refine ⟨w.availIdx, w.avail, w.fetched, w.usedIdx, w.used, w.seenIdx, w.handled, w.jobs, w.head,
    fun q g hq => w.num_le q g (hof q g hq), fun q g hq => w.posted q g (hof q g hq),
    fun q g hq => w.ready q g (hof q g hq), fun n q g hn hnot => ?_, w.status, fun q g hq => w.flag q g (hof q g hq)⟩
  obtain ⟨hq, rfl⟩ := w.live n q g hn hnot
  have hne : q ≠ p := by
    rintro rfl
    rw [hp] at hq
    cases hq
    exact hnot hpast
  exact ⟨by rwa [Function.update_of_ne hne], rfl⟩

/-- virtio_disk_intr handles the next completion. -/
theorem handle (w : Flow F d flag v h) (hj : h.completed[h.handled]? = some j) (hp : F p = some f) (hnum : f.num = j.num)
    (hother : ∀ q g, F q = some g → g.call.buf = f.call.buf → q = p) :
    Flow F { d with seenIdx := d.seenIdx + 1 } (Function.update flag f.call.buf false) v
      { h with handled := h.handled + 1 } := by
  have hlt : h.handled < h.completed.length := (List.getElem?_eq_some_iff.mp hj).1
  have htake : h.completed.take (h.handled + 1) = h.completed.take h.handled ++ [j] := by
    rw [List.take_add_one, hj]
    rfl
  have hpast : ∀ n, n ∈ (⟨h.posted, h.completed, h.handled + 1⟩ : Hist P B).past ↔ n ∈ h.past ∨ n = j.num := by
    intro n
    simp only [Hist.past, htake, List.map_append, List.mem_append, List.map_cons, List.map_nil, List.mem_singleton]
  refine ⟨w.availIdx, w.avail, w.fetched, w.usedIdx, w.used.mono (Nat.le_succ _), ?_, hlt, w.jobs, w.head, w.num_le, w.posted,
    w.ready, fun n q g hn hnot => w.live n q g hn fun hm => hnot ((hpast n).mpr (.inl hm)), fun i hi => ?_, fun q g hq => ?_⟩
  · simp only [ofNat_succ, w.seenIdx]
  · refine w.status i ?_
    rcases List.mem_append.mp hi with hi | hi
    · exact List.mem_append_left _ hi
    · exact List.mem_append_right _ (List.mem_of_mem_drop (by rwa [List.drop_drop] : i ∈ (h.completed.drop h.handled).drop 1))
  · rw [hpast]
    by_cases hb : g.call.buf = f.call.buf
    · obtain rfl := hother q g hq hb
      rw [hp] at hq
      cases hq
      rw [Function.update_self, hnum]
      simp
    · have hne : g.num ≠ j.num := by
        intro he
        -- the number tells the call
        have hjlt : j.num < h.posted.length :=
          (w.num_lt (List.mem_append_right _ (List.mem_of_getElem? hj))).trans_le w.fetched
        have hpf := w.posted p f hp (hnum ▸ hjlt)
        rw [hnum, ← he, w.posted q g hq (he ▸ hjlt)] at hpf
        cases hpf
        exact hb rfl
      rw [Function.update_of_ne hb, w.flag q g hq]
      simp [hne]

/-- The device takes the next head. -/
theorem fetch (w : Flow F d flag v h) (hlt : v.fetched < h.posted.length) :
    Flow F d flag { v with fetched := v.fetched + 1
                           taken := v.taken ++ [⟨v.fetched, d.availRing (v.fetched % NUM)⟩] } h := by
  have hperm : ∀ x : Job, (v.taken ++ [x] ++ v.done ++ h.completed).Perm (v.taken ++ v.done ++ h.completed ++ [x]) := by
    intro x
    refine List.perm_iff_count.mpr fun a => ?_
    simp only [List.count_append]
    omega
  refine ⟨w.availIdx, w.avail.mono (Nat.le_succ _), hlt, w.usedIdx, w.used, w.seenIdx, w.handled, ?_, fun i hi => ?_,
    w.num_le, w.posted, w.ready, w.live, w.status, w.flag⟩
  · refine ((hperm _).map Job.num).trans ?_
    rw [List.map_append, List.range_succ]
    exact w.jobs.append_right _
  · rcases List.mem_append.mp ((hperm _).mem_iff.mp hi) with hi | hi
    · exact w.head i hi
    · rw [List.mem_singleton.mp hi]
      have hget := List.getElem?_eq_getElem hlt
      refine ⟨_, _, hget, w.avail _ _ le_rfl ?_⟩
      rw [List.getElem?_map, hget]
      rfl

/-- The device has carried out a request. -/
theorem perform (w : Flow F d flag v h) {k : Nat} (hj : v.taken[k]? = some j)
    (hinfo : ∀ i, i ≠ j.head → (d'.info i).status = (d.info i).status) (hdone : (d'.info j.head).status = 0)
    (hidx : d'.availIdx = d.availIdx ∧ d'.availRing = d.availRing ∧ d'.usedIdx = d.usedIdx ∧ d'.usedRing = d.usedRing ∧
      d'.seenIdx = d.seenIdx) :
    Flow F d' flag { v with taken := v.taken.eraseIdx k, done := v.done ++ [j] } h := by
  obtain ⟨havail, hring, hused, hurings, hseen⟩ := hidx
  obtain ⟨hk, rfl⟩ := List.getElem?_eq_some_iff.mp hj
  have hperm : (v.taken.eraseIdx k ++ (v.done ++ [v.taken[k]]) ++ h.completed).Perm (v.taken ++ v.done ++ h.completed) := by
    refine List.perm_iff_count.mpr fun a => ?_
    have hc := List.perm_iff_count.mp (List.getElem_cons_eraseIdx_perm hk) a
    simp only [List.count_append, List.count_cons, List.count_nil] at hc ⊢
    omega
  refine ⟨havail.trans w.availIdx, hring ▸ w.avail, w.fetched, hused.trans w.usedIdx, hurings ▸ w.used,
    hseen.trans w.seenIdx, w.handled, (hperm.map Job.num).trans w.jobs, fun i hi => w.head i (hperm.mem_iff.mp hi), w.num_le,
    w.posted, hring ▸ w.ready, w.live, fun i hi => ?_, w.flag⟩
  by_cases he : i.head = v.taken[k].head
  · rw [he, hdone]
  · rw [hinfo _ he]
    refine w.status i ?_
    simp only [List.append_assoc, List.mem_append, List.mem_singleton] at hi ⊢
    rcases hi with hi | rfl | hi
    · exact .inl hi
    · exact absurd rfl he
    · exact .inr hi

/-- The device appends a head to the used ring. -/
theorem complete (w : Flow F d flag v h) (t : Table F d) {k : Nat} (hj : v.done[k]? = some j) :
    Flow F { d with usedRing := Function.update d.usedRing (h.completed.length % NUM) j.head
                    usedIdx := d.usedIdx + 1 } flag { v with done := v.done.eraseIdx k }
      { h with completed := h.completed ++ [j] } := by
  obtain ⟨hk, rfl⟩ := List.getElem?_eq_some_iff.mp hj
  have hroom := w.used_room t (List.getElem_mem hk)
  have hperm : (v.taken ++ v.done.eraseIdx k ++ (h.completed ++ [v.done[k]])).Perm (v.taken ++ v.done ++ h.completed) := by
    refine List.perm_iff_count.mpr fun a => ?_
    have hc := List.perm_iff_count.mp (List.getElem_cons_eraseIdx_perm hk) a
    simp only [List.count_append, List.count_cons, List.count_nil] at hc ⊢
    omega
  have hpast : (⟨h.posted, h.completed ++ [v.done[k]], h.handled⟩ : Hist P B).past = h.past := by
    simp only [Hist.past, List.take_append_of_le_length w.handled]
  refine ⟨w.availIdx, w.avail, w.fetched, ?_, ?_, w.seenIdx, ?_, (hperm.map Job.num).trans w.jobs,
    fun i hi => w.head i (hperm.mem_iff.mp hi), w.num_le, w.posted, w.ready, hpast ▸ w.live, fun i hi => ?_, hpast ▸ w.flag⟩
  · simp only [List.length_append, List.length_singleton, ofNat_succ, w.usedIdx]
  · have hshow := w.used.update v.done[k].head (by simpa using hroom)
    rw [List.length_map] at hshow
    rw [List.map_append]
    exact hshow.push (x := v.done[k].head) (by rw [List.length_map, Function.update_self])
  · have := w.handled
    simp only [List.length_append]
    omega
  · refine w.status i ?_
    rw [List.drop_append_of_le_length w.handled] at hi
    simp only [List.mem_append, List.mem_singleton] at hi ⊢
    rcases hi with hi | hi | rfl
    · exact .inl (List.mem_of_mem_eraseIdx hi)
    · exact .inr hi
    · exact .inl (List.getElem_mem hk)

end Flow

end Xv6.Virtio
