/-
Who sleeps on a pipe. While nobody holds the lock, a writer sleeps only if the ring is full and the read end open, and
then no reader sleeps: readers and writers never wait for each other. A reader sleeps only if the write end is open and
the ring empty, unless a pipewrite has returned -1: it returns without the wakeup for the bytes it put.
-/
import Xv6.Pipe.Fifo

namespace Xv6.Pipes

open Lib

/-- A point where the process holds the lock. -/
def Thread.inside : Thread → Bool
  | .writeLoop _ _ | .readWait _ | .readLoop _ _ => true
  | _ => false

namespace St

def Full (s : St) : Prop := s.pipe.nwrite = s.pipe.nread + UInt32.ofNat PIPESIZE

def NoReader (s : St) : Prop := ∀ t c, s.thread t ≠ .readSleep c

def NoWriter (s : St) : Prop := ∀ t c i, s.thread t ≠ .writeSleep c i

theorem Full.ne {s : St} (h : s.Full) : s.pipe.nread ≠ s.pipe.nwrite := by
  rw [h, ne_eq, UInt32.left_eq_add]
  decide

end St

/-- Why processes sleep; or there is one in a loop that will wake them before it lets go of the lock. -/
structure Waits (s : St) : Prop where
  inside : ∀ t, (s.thread t).inside = true → s.lock = some t
  writers : s.NoWriter ∨ s.NoReader ∧ (s.Full ∧ s.pipe.readopen = true ∨ ∃ t c i, s.thread t = .readLoop c i)
  readers : s.NoReader ∨ s.pipe.writeopen = true ∧ (s.pipe.nread = s.pipe.nwrite ∨
    (∃ t c i, s.thread t = .writeLoop c i) ∨ ∃ c, (c, -1) ∈ s.returned)

namespace Waits

variable {s s' : St} {t : Nat}

/-- The step of a process that has the lock. pipewrite wakes the readers before it sleeps, and puts a byte only when no
writer sleeps; piperead sleeps only on an empty ring, where none does, and wakes the writers when it is done. -/
theorem loop (h : Waits s) (ht : (s.thread t).inside = true) (he : run s t = .ok s') : Waits s' := by
  have hout (u : Nat) (hu : u ≠ t) : (s.thread u).inside = false := by
    have := h.inside u
    grind [h.inside t ht]
  have hne := St.Full.ne (s := s)
  obtain ⟨hi, hws, hrs⟩ := h
  unfold run St.pipewrite St.pipereadWait St.pipereadCopy at he
  cases hth : s.thread t <;> simp only [hth, Thread.inside, Bool.false_eq_true] at ht he
  all_goals
    cases he
    split_ifs <;> try split
    all_goals constructor <;> simp only [St.wakeupReaders, St.wakeupWriters, St.writeReturn, St.store, St.fetch, St.release,
      St.goto, St.NoReader, St.NoWriter, St.Full, Function.update_apply] at * <;> grind -ring -linarith [Thread.inside]

/-- A process without the lock enters, takes it if it is free, is killed, or closes an end and wakes those it concerns. -/
theorem other {l : Label} (h : Waits s) (ht : ∀ t, l = .run t → (s.thread t).inside = false) (he : step s l = .ok s') :
    Waits s' := by
  obtain ⟨hi, hws, hrs⟩ := h
  unfold step enter run acquiring St.pipeclose St.closeEnd at he
  split at he
  · cases he
  cases l
  all_goals
    simp only [Label.run.injEq, forall_eq', reduceCtorEq] at ht he
    repeat' split at he
  all_goals
    cases he <;> constructor <;> simp only [St.wakeupReaders, St.wakeupWriters, St.kill, St.acquire, St.goto,
      St.NoReader, St.NoWriter, St.Full, Function.update_apply] at * <;> grind -ring -linarith [Thread.inside]

theorem step {l : Label} (h : Waits s) (he : step s l = .ok s') : Waits s' := by
  by_cases hl : ∃ t, l = .run t ∧ (s.thread t).inside = true
  · obtain ⟨t, rfl, ht⟩ := hl
    unfold Pipes.step at he
    split at he
    · cases he
    · exact h.loop ht he
  · exact h.other (fun t ht => by simpa using fun hi => hl ⟨t, ht, hi⟩) he

end Waits

/-- **Nobody sleeps on a pipe without reason**, as long as nobody holds its lock. -/
theorem pipe_sleepers {s : St} (h : Reach step init s) (hl : s.lock = none) :
    (∀ t c i, s.thread t = .writeSleep c i → s.Full ∧ s.pipe.readopen = true ∧ s.NoReader) ∧
    ∀ t c, s.thread t = .readSleep c →
      s.pipe.writeopen = true ∧ (s.pipe.nread = s.pipe.nwrite ∨ ∃ d, (d, -1) ∈ s.returned) := by
  have hw : Waits s := h.invariant (fun _ ⟨_, hs⟩ => hs ▸ ⟨nofun, .inl nofun, .inl nofun⟩) fun _ _ _ h he => h.step he
  have hout (t : Nat) : (s.thread t).inside = false := by
    have := hw.inside t
    grind
  refine ⟨fun t c i ht => ?_, fun t c ht => ?_⟩
  · obtain hn | ⟨hn, hf | ⟨u, d, j, hu⟩⟩ := hw.writers
    · exact absurd ht (hn t c i)
    · exact ⟨hf.1, hf.2, hn⟩
    · exact absurd (hu ▸ hout u) nofun
  · obtain hn | ⟨ho, he | ⟨u, d, j, hu⟩ | hd⟩ := hw.readers
    · exact absurd ht (hn t c)
    · exact ⟨ho, .inl he⟩
    · exact absurd (hu ▸ hout u) nofun
    · exact ⟨ho, .inr hd⟩

/-- Process 1 is killed when it has put a byte, and process 2 sleeps on. -/
def killedRun : List Label :=
  [.read 2 (fun _ => true) 1, .run 2, .run 2, .write 1 (fun _ => some 97) 2, .run 1, .run 1, .kill 1, .run 1]

theorem pipe_sleepers_killed : ∃ s c, Reach step init s ∧ s.lock = none ∧ s.thread 2 = .readSleep c ∧
    s.pipe.nread ≠ s.pipe.nwrite ∧ s.pipe.writeopen = true := by
  have hr : ∀ s, runs step emptyPipe killedRun = .ok s → Reach step init s := fun s => (Reach.init ⟨_, rfl⟩).of_runs
  exact ⟨_, _, hr _ rfl, rfl, rfl, by decide, ((pipe_sleepers (hr _ rfl) rfl).2 2 _ rfl).1⟩

end Xv6.Pipes
