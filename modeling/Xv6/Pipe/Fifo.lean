/-
A pipe is a FIFO. In every state that any interleaving of pipewrite, piperead and
pipeclose reaches, the ring holds what was put into it and not yet taken, in order, and
at most PIPESIZE bytes; and a pipewrite that returned `i` put exactly the first `i`
bytes of its buffer. The counters wrap at 2^32 and the cells do not jump there, because
PIPESIZE divides 2^32.
-/
import Xv6.Pipe.Model

namespace Xv6.Pipes

open Lib

/-- The pipewrite a process is in, and how many bytes it has put. -/
def Thread.writing : Thread → Option (WriteCall × Nat)
  | .writeEnter c i | .writeLoop c i | .writeSleep c i => some (c, i)
  | _ => none

namespace St

def writing (s : St) (t : Nat) : Option (WriteCall × Nat) := (s.thread t).writing

/-- The bytes a call has put into the ring. -/
def sent (s : St) (id : Nat) : List UInt8 := (s.put.filter (·.1 = id)).map Prod.snd

/-- The call has put exactly the first `i` bytes of its buffer. -/
def Sent (s : St) (c : WriteCall) (i : Nat) : Prop := (s.sent c.id).map some = (List.range i).map c.src

variable (s : St) (t : Nat)

@[simp] theorem writing_goto (th : Thread) : (s.goto t th).writing = Function.update s.writing t th.writing := by
  funext u
  simp only [writing, goto, Function.update_apply]
  split <;> rfl

@[simp] theorem writing_wakeupReaders : s.wakeupReaders.writing = s.writing := by
  funext u
  simp only [writing, wakeupReaders]
  cases s.thread u <;> rfl

@[simp] theorem writing_wakeupWriters : s.wakeupWriters.writing = s.writing := by
  funext u
  simp only [writing, wakeupWriters]
  cases s.thread u <;> rfl

@[simp] theorem writing_kill : (s.kill t).writing = s.writing := by
  funext u
  simp only [writing, kill, Function.update_apply]
  split
  · next h =>
    subst h
    cases s.thread u <;> rfl
  · rfl

@[simp] theorem writing_release : s.release.writing = s.writing := rfl

@[simp] theorem writing_closeEnd (w : Bool) : (s.closeEnd w).writing = s.writing := by
  cases w
  · exact writing_wakeupWriters _
  · exact writing_wakeupReaders _

@[simp] theorem sent_store (id : Nat) (ch : UInt8) : (s.store id ch).sent id = s.sent id ++ [ch] := by
  simp [sent, store]

@[simp] theorem sent_store_ne {id id' : Nat} (ch : UInt8) (h : id ≠ id') : (s.store id ch).sent id' = s.sent id' := by
  simp [sent, store, h]

end St

/-! ## The ring -/

/-- The ring holds what was put and not yet taken. -/
def Queue (s : St) : Prop :=
  ∃ xs, Ring.Holds s.pipe.data s.pipe.nread s.pipe.nwrite xs ∧ s.put.map Prod.snd = s.taken ++ xs

theorem pipesize_dvd : PIPESIZE ∣ 2 ^ 32 := ⟨2 ^ 23, by decide⟩
theorem pipesize_lt : PIPESIZE < 2 ^ 32 := by decide

/-- pipewrite stores only when its test for a full ring fails. -/
theorem Queue.store {s : St} {id : Nat} {ch : UInt8} (h : Queue s)
    (hfull : s.pipe.nwrite ≠ s.pipe.nread + UInt32.ofNat PIPESIZE) : Queue (s.store id ch) := by
  obtain ⟨xs, hr, hp⟩ := h
  have hlt : xs.length < PIPESIZE := by
    rcases Nat.lt_or_eq_of_le hr.fits with hlt | heq
    · exact hlt
    · exact absurd (heq ▸ hr.span) hfull
  exact ⟨xs ++ [ch], hr.push pipesize_dvd hlt, by simp [St.store, hp]⟩

/-- Only the ring and the record of what went through it matter. -/
theorem Queue.congr {s s' : St} (h : Queue s) (hd : s'.pipe.data = s.pipe.data) (hr : s'.pipe.nread = s.pipe.nread)
    (hw : s'.pipe.nwrite = s.pipe.nwrite) (hp : s'.put = s.put) (ht : s'.taken = s.taken) : Queue s' := by
  unfold Queue
  rwa [hd, hr, hw, hp, ht]

/-- piperead fetches only when its test for an empty ring fails. -/
theorem Queue.fetch {s : St} (h : Queue s) (hne : s.pipe.nread ≠ s.pipe.nwrite) : Queue s.fetch := by
  obtain ⟨xs, hr, hp⟩ := h
  cases xs with
  | nil => exact absurd ((hr.eq_iff pipesize_lt).mpr rfl) hne
  | cons x xs =>
    obtain ⟨hx, hr'⟩ := hr.pop
    refine ⟨xs, hr', ?_⟩
    simp only [St.fetch, hp, hx, List.append_assoc, List.singleton_append]

/-! ## The record of the calls -/

/-- Ids tell calls apart, and each call's bytes in the ring are the start of its buffer. -/
structure Record (s : St) : Prop where
  known : ∀ p ∈ s.put, p.1 < s.calls
  active : ∀ t c i, s.writing t = some (c, i) → c.id < s.calls ∧ s.Sent c i
  once : ∀ t t' c c' i i', s.writing t = some (c, i) → s.writing t' = some (c', i') → c.id = c'.id → t = t'
  done : ∀ c r, (c, r) ∈ s.returned → c.id < s.calls ∧ (0 ≤ r → s.Sent c r.toNat)
  left : ∀ c r t c' i, (c, r) ∈ s.returned → s.writing t = some (c', i) → c'.id ≠ c.id

namespace Record

variable {s s' : St} {t : Nat} {c : WriteCall} {i : Nat}

/-- Steps that put nothing and return nothing keep the record. -/
theorem congr (h : Record s) (hp : s'.put = s.put) (hc : s'.calls = s.calls) (hd : s'.returned = s.returned)
    (hw : s'.writing = s.writing) : Record s' := by
  have hs : ∀ c i, s'.Sent c i ↔ s.Sent c i := fun c i => by simp only [St.Sent, St.sent, hp]
  obtain ⟨h1, h2, h3, h4, h5⟩ := h
  constructor
  · rwa [hp, hc]
  · rw [hw, hc]
    exact fun t c i hwr => ⟨(h2 t c i hwr).1, (hs c i).mpr (h2 t c i hwr).2⟩
  · rwa [hw]
  · rw [hd, hc]
    exact fun c r hr => ⟨(h4 c r hr).1, fun h0 => (hs c _).mpr ((h4 c r hr).2 h0)⟩
  · rwa [hd, hw]

/-- A pipewrite begins. -/
theorem begin {src : Nat → Option UInt8} {n : Int} (h : Record s) (hp : s'.put = s.put) (hc : s'.calls = s.calls + 1)
    (hd : s'.returned = s.returned) (hw : s'.writing = Function.update s.writing t (some (⟨s.calls, src, n⟩, 0))) :
    Record s' := by
  have hs : ∀ c i, s'.Sent c i ↔ s.Sent c i := fun c i => by simp only [St.Sent, St.sent, hp]
  -- the new id is above all others
  have fresh : ∀ u d j, u ≠ t → s'.writing u = some (d, j) → s.writing u = some (d, j) ∧ d.id < s.calls := by
    intro u d j hu hwr
    rw [hw, Function.update_of_ne hu] at hwr
    exact ⟨hwr, (h.active u d j hwr).1⟩
  have new : ∀ d j, s'.writing t = some (d, j) → d.id = s.calls ∧ j = 0 := by
    intro d j hwr
    rw [hw, Function.update_self, Option.some.injEq, Prod.mk.injEq] at hwr
    exact ⟨hwr.1 ▸ rfl, hwr.2.symm⟩
  constructor
  · intro p hmem
    rw [hp] at hmem
    have := h.known p hmem
    omega
  · intro u d j hwr
    by_cases hu : u = t
    · subst hu
      obtain ⟨hid, rfl⟩ := new d j hwr
      refine ⟨by omega, (hs d 0).mpr ?_⟩
      have hnone : s.put.filter (·.1 = d.id) = [] := by
        rw [List.filter_eq_nil_iff]
        intro p hmem
        have := h.known p hmem
        simp only [decide_eq_true_eq]
        omega
      simp [St.Sent, St.sent, hnone]
    · obtain ⟨hwr, hlt⟩ := fresh u d j hu hwr
      exact ⟨by omega, (hs d j).mpr (h.active u d j hwr).2⟩
  · intro u u' d d' j j' hwr hwr' hid
    by_cases hu : u = t <;> by_cases hu' : u' = t
    · rw [hu, hu']
    · subst hu
      have := (new d j hwr).1
      have := (fresh u' d' j' hu' hwr').2
      omega
    · subst hu'
      have := (new d' j' hwr').1
      have := (fresh u d j hu hwr).2
      omega
    · exact h.once u u' d d' j j' (fresh u d j hu hwr).1 (fresh u' d' j' hu' hwr').1 hid
  · intro d r hr
    rw [hd] at hr
    have := h.done d r hr
    exact ⟨by omega, fun h0 => (hs d _).mpr (this.2 h0)⟩
  · intro d r u d' j hr hwr
    rw [hd] at hr
    by_cases hu : u = t
    · subst hu
      have := (new d' j hwr).1
      have := (h.done d r hr).1
      omega
    · exact h.left d r u d' j hr (fresh u d' j hu hwr).1

/-- The call of process `t` puts one byte. -/
theorem store {ch : UInt8} (h : Record s) (ht : s.writing t = some (c, i)) (hsrc : c.src i = some ch) :
    Record ((s.store c.id ch).goto t (.writeLoop c (i + 1))) := by
  have hw : ((s.store c.id ch).goto t (.writeLoop c (i + 1))).writing =
      Function.update s.writing t (some (c, i + 1)) := St.writing_goto _ _ _
  -- another call's bytes stay as they are
  have other : ∀ d j, d.id ≠ c.id → s.Sent d j → (s.store c.id ch).Sent d j := by
    intro d j hne hd
    rwa [St.Sent, St.sent_store_ne s ch (Ne.symm hne)]
  have before : ∀ u d j, u ≠ t → Function.update s.writing t (some (c, i + 1)) u = some (d, j) →
      s.writing u = some (d, j) ∧ d.id ≠ c.id := by
    intro u d j hu hwr
    rw [Function.update_of_ne hu] at hwr
    exact ⟨hwr, fun he => hu (h.once u t d c j i hwr ht he)⟩
  constructor
  · intro p hmem
    rcases List.mem_append.mp hmem with hmem | hmem
    · exact h.known p hmem
    · rw [List.mem_singleton.mp hmem]
      exact (h.active t c i ht).1
  · rw [hw]
    intro u d j hwr
    by_cases hu : u = t
    · subst hu
      rw [Function.update_self, Option.some.injEq, Prod.mk.injEq] at hwr
      obtain ⟨rfl, rfl⟩ := hwr
      have := (h.active u c i ht).2
      refine ⟨(h.active u c i ht).1, ?_⟩
      change ((s.store c.id ch).sent c.id).map some = _
      rw [St.sent_store, List.map_append, this, List.range_succ, List.map_append, List.map_singleton,
        List.map_singleton, hsrc]
    · obtain ⟨hwr, hne⟩ := before u d j hu hwr
      exact ⟨(h.active u d j hwr).1, other d j hne (h.active u d j hwr).2⟩
  · rw [hw]
    intro u u' d d' j j' hwr hwr' hid
    by_cases hu : u = t <;> by_cases hu' : u' = t
    · rw [hu, hu']
    · subst hu
      rw [Function.update_self, Option.some.injEq, Prod.mk.injEq] at hwr
      exact absurd (hwr.1 ▸ hid.symm) (before u' d' j' hu' hwr').2
    · subst hu'
      rw [Function.update_self, Option.some.injEq, Prod.mk.injEq] at hwr'
      exact absurd (hwr'.1 ▸ hid) (before u d j hu hwr).2
    · exact h.once u u' d d' j j' (before u d j hu hwr).1 (before u' d' j' hu' hwr').1 hid
  · intro d r hr
    have hne := (h.left d r t c i hr ht).symm
    exact ⟨(h.done d r hr).1, fun h0 => other d _ hne ((h.done d r hr).2 h0)⟩
  · rw [hw]
    intro d r u d' j hr hwr
    by_cases hu : u = t
    · subst hu
      rw [Function.update_self, Option.some.injEq, Prod.mk.injEq] at hwr
      exact hwr.1 ▸ h.left d r u c i hr ht
    · exact h.left d r u d' j hr (before u d' j hu hwr).1

/-- The call of process `t` returns: -1, or the number of bytes it put. -/
theorem writeReturn {r : Int} (h : Record s) (ht : s.writing t = some (c, i)) (hr : r = -1 ∨ r = i) :
    Record (s.writeReturn t c r) := by
  have hw : (s.writeReturn t c r).writing = Function.update s.writing t none := St.writing_goto s.release t .idle
  have before : ∀ u d j, (s.writeReturn t c r).writing u = some (d, j) → u ≠ t ∧ s.writing u = some (d, j) := by
    intro u d j hwr
    rw [hw, Function.update_apply] at hwr
    split at hwr
    · cases hwr
    · next hu => exact ⟨hu, hwr⟩
  have hsent : 0 ≤ r → s.Sent c r.toNat := by
    intro h0
    rcases hr with rfl | rfl
    · omega
    · exact (h.active t c i ht).2
  constructor
  · exact h.known
  · exact fun u d j hwr => h.active u d j (before u d j hwr).2
  · exact fun u u' d d' j j' hwr hwr' => h.once u u' d d' j j' (before u d j hwr).2 (before u' d' j' hwr').2
  · intro d q hmem
    rcases List.mem_append.mp hmem with hmem | hmem
    · exact h.done d q hmem
    · cases List.mem_singleton.mp hmem
      exact ⟨(h.active t c i ht).1, hsent⟩
  · intro d q u d' j hmem hwr
    rcases List.mem_append.mp hmem with hmem | hmem
    · exact h.left d q u d' j hmem (before u d' j hwr).2
    · cases List.mem_singleton.mp hmem
      obtain ⟨hu, hwr⟩ := before u d' j hwr
      exact fun he => hu (h.once u t d' c j i hwr ht he)

end Record

/-! ## Every step -/

def Inv (s : St) : Prop := Queue s ∧ Record s

theorem inv_init {s : St} (h : init s) : Inv s := by
  obtain ⟨data, rfl⟩ := h
  refine ⟨⟨[], Ring.Holds.empty _ _, rfl⟩, ?_⟩
  constructor <;> intros <;> simp_all [St.writing, Thread.writing]

namespace Inv

variable {s : St} {t : Nat}

theorem pipewrite {c : WriteCall} {i : Nat} (h : Inv s) (ht : s.thread t = .writeLoop c i) : Inv (s.pipewrite t c i) := by
  have hwr : s.writing t = some (c, i) := by rw [St.writing, ht]; rfl
  have hwr' : s.wakeupReaders.writing t = some (c, i) := by rw [St.writing_wakeupReaders, hwr]
  have awake : Inv s.wakeupReaders := ⟨h.1.congr rfl rfl rfl rfl rfl, h.2.congr rfl rfl rfl (by simp)⟩
  have finish : ∀ r : Int, r = i → Inv (s.wakeupReaders.writeReturn t c r) := fun r hr =>
    ⟨awake.1.congr rfl rfl rfl rfl rfl, awake.2.writeReturn hwr' (.inr hr)⟩
  unfold St.pipewrite
  split
  · split
    · exact ⟨h.1.congr rfl rfl rfl rfl rfl, h.2.writeReturn hwr (.inl rfl)⟩
    · split
      · refine ⟨awake.1.congr rfl rfl rfl rfl rfl, awake.2.congr rfl rfl rfl ?_⟩
        rw [St.writing_goto, St.writing_release]
        exact Function.update_eq_self_iff.mpr hwr'.symm
      · next hfull =>
        split
        · exact finish i rfl
        · next ch hsrc => exact ⟨(h.1.store hfull).congr rfl rfl rfl rfl rfl, h.2.store hwr hsrc⟩
  · exact finish i rfl

/-- A process that is in no pipewrite moves to a point that is in none. -/
theorem goto {s' : St} {th : Thread} (h : Inv s') (ht : s'.writing t = none) (hth : th.writing = none) :
    Inv (s'.goto t th) := by
  refine ⟨h.1.congr rfl rfl rfl rfl rfl, h.2.congr rfl rfl rfl ?_⟩
  rw [St.writing_goto]
  exact Function.update_eq_self_iff.mpr (hth.trans ht.symm)

theorem release (h : Inv s) : Inv s.release := ⟨h.1.congr rfl rfl rfl rfl rfl, h.2.congr rfl rfl rfl rfl⟩

theorem acquire (h : Inv s) : Inv (s.acquire t) := ⟨h.1.congr rfl rfl rfl rfl rfl, h.2.congr rfl rfl rfl rfl⟩

theorem wakeupWriters (h : Inv s) : Inv s.wakeupWriters :=
  ⟨h.1.congr rfl rfl rfl rfl rfl, h.2.congr rfl rfl rfl (by simp)⟩

theorem pipereadWait {c : ReadCall} (h : Inv s) (ht : s.writing t = none) : Inv (s.pipereadWait t c) := by
  unfold St.pipereadWait
  split
  · split
    · exact h.release.goto ht rfl
    · exact h.release.goto ht rfl
  · exact h.goto ht rfl

theorem pipereadCopy {c : ReadCall} {i : Nat} (h : Inv s) (ht : s.writing t = none) : Inv (s.pipereadCopy t c i) := by
  have ht' : ∀ s' : St, s'.writing t = none → s'.wakeupWriters.release.writing t = none := fun s' h' => by
    rw [St.writing_release, St.writing_wakeupWriters, h']
  unfold St.pipereadCopy
  split
  · next hc =>
    have hf : Inv s.fetch := ⟨h.1.fetch hc.2, h.2.congr rfl rfl rfl rfl⟩
    split
    · exact hf.goto ht rfl
    · exact hf.wakeupWriters.release.goto (ht' s.fetch ht) rfl
  · exact h.wakeupWriters.release.goto (ht' s ht) rfl

theorem pipeclose {w : Bool} (h : Inv s) (ht : s.writing t = none) : Inv (s.pipeclose t w) := by
  have hc : Inv (s.closeEnd w) := by
    refine ⟨?_, ?_⟩
    · cases w <;> exact h.1.congr rfl rfl rfl rfl rfl
    · cases w <;> exact h.2.congr rfl rfl rfl (by simp)
  have hg : Inv ((s.closeEnd w).goto t .idle) := hc.goto (by rw [St.writing_closeEnd, ht]) rfl
  unfold St.pipeclose
  dsimp only
  split
  · exact ⟨hg.1.congr rfl rfl rfl rfl rfl, hg.2.congr rfl rfl rfl rfl⟩
  · exact hg

end Inv

theorem writing_of_enter {s s' s'' : St} {t : Nat} (he : enter s t s' = .ok s'') : s.writing t = none ∧ s'' = s' := by
  unfold enter at he
  split at he
  · next ht =>
    cases he
    exact ⟨by rw [St.writing, ht]; rfl, rfl⟩
  · cases he

theorem acquiring_ok {s s' s'' : St} {t : Nat} (he : acquiring s t s' = .ok s'') : s'' = s'.acquire t := by
  unfold acquiring at he
  split at he
  · cases he
    rfl
  · cases he

theorem run_inv {s s' : St} {t : Nat} (h : Inv s) (he : run s t = .ok s') : Inv s' := by
  unfold run at he
  split at he
  case h_1 c i ht =>
    rw [acquiring_ok he]
    refine Inv.acquire ⟨h.1.congr rfl rfl rfl rfl rfl, h.2.congr rfl rfl rfl ?_⟩
    rw [St.writing_goto]
    exact Function.update_eq_self_iff.mpr (by rw [St.writing, ht]; rfl)
  case h_2 c i ht =>
    cases he
    exact h.pipewrite ht
  case h_3 c ht =>
    rw [acquiring_ok he]
    exact (h.goto (by rw [St.writing, ht]; rfl) rfl).acquire
  case h_4 c ht =>
    cases he
    exact h.pipereadWait (by rw [St.writing, ht]; rfl)
  case h_5 c i ht =>
    cases he
    exact h.pipereadCopy (by rw [St.writing, ht]; rfl)
  case h_6 w ht =>
    split at he
    · cases he
      exact h.pipeclose (by rw [St.writing, ht]; rfl)
    · cases he
  all_goals cases he

theorem step_inv (s : St) (l : Label) (s' : St) (h : Inv s) (he : step s l = .ok s') : Inv s' := by
  unfold step at he
  split at he
  · cases he
  · cases l with
    | write t src n =>
      obtain ⟨-, rfl⟩ := writing_of_enter he
      exact ⟨h.1.congr rfl rfl rfl rfl rfl, h.2.begin rfl rfl rfl (St.writing_goto _ _ _)⟩
    | read t dst n =>
      obtain ⟨ht, rfl⟩ := writing_of_enter he
      exact h.goto ht rfl
    | close t w =>
      obtain ⟨ht, rfl⟩ := writing_of_enter he
      exact h.goto ht rfl
    | run t => exact run_inv h he
    | kill t =>
      cases he
      exact ⟨h.1.congr rfl rfl rfl rfl rfl, h.2.congr rfl rfl rfl (by simp)⟩

/-- **The ring is a FIFO.** In every state a run reaches: the counters are at most PIPESIZE apart, what has been
taken is the start of what has been put, the rest is what the ring holds from `nread` on, and every pipewrite
that returned a count put exactly that many bytes of its buffer, from its start and in order. -/
theorem pipe_fifo {s : St} (h : Reach step init s) :
    (s.pipe.nwrite - s.pipe.nread).toNat ≤ PIPESIZE ∧
    s.taken <+: s.put.map Prod.snd ∧
    s.put.map Prod.snd = s.taken ++ Ring.window s.pipe.data s.pipe.nread (s.pipe.nwrite - s.pipe.nread).toNat ∧
    ∀ c r, (c, r) ∈ s.returned → 0 ≤ r →
      ((s.put.filter (·.1 = c.id)).map Prod.snd).map some = (List.range r.toNat).map c.src := by
  obtain ⟨⟨xs, hr, hp⟩, hrec⟩ := h.invariant (fun s => inv_init) step_inv
  have hn := hr.sub_eq pipesize_lt
  refine ⟨hn ▸ hr.fits, ⟨xs, hp.symm⟩, ?_, fun c r hmem => (hrec.done c r hmem).2⟩
  rw [hn, hr.cells, hp]

/-- Process 1 writes "abc" while process 2 waits for two bytes. -/
def demoRun : List Label :=
  [.read 2 (fun _ => true) 2, .run 2, .run 2, .write 1 (fun i => some (UInt8.ofNat (97 + i))) 3, .run 1, .run 1, .run 1,
    .run 1, .run 1, .run 2, .run 2, .run 2, .run 2, .run 2]

def emptyPipe : St := ⟨⟨fun _ => 0, 0, 0, true, true⟩, none, fun _ => .idle, fun _ => false, false, 0, [], [], []⟩

/-- The ring is a FIFO after this run: two bytes are taken, one is left. -/
theorem pipe_fifo_abc : ∃ s, Reach step init s ∧ s.taken = [97, 98] ∧ s.put = [(0, 97), (0, 98), (0, 99)] ∧
    (s.pipe.nwrite - s.pipe.nread).toNat ≤ PIPESIZE ∧
    s.put.map Prod.snd = s.taken ++ Ring.window s.pipe.data s.pipe.nread (s.pipe.nwrite - s.pipe.nread).toNat := by
  have reach : ∀ s, runs step emptyPipe demoRun = .ok s → Reach step init s :=
    fun s hs => (Reach.init ⟨_, rfl⟩).of_runs hs
  exact ⟨_, reach _ rfl, rfl, rfl, (pipe_fifo (reach _ rfl)).1, (pipe_fifo (reach _ rfl)).2.2.1⟩

end Xv6.Pipes
