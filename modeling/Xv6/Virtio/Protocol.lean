/-
The protocol between virtio_disk_rw, the device and virtio_disk_intr. `Inv` adds to the
table and the flow who holds the lock and the buffers; every step keeps it, and none
panics. The result, `rw_protocol`, says what that means for the driver's callers.
-/
import Xv6.Virtio.Flow

namespace Xv6.Virtio

open Lib Lib.Feed

set_option linter.unusedSectionVars false

variable {P B D : Type} [DecidableEq P] [DecidableEq B]

/-- Who holds what. -/
structure Locks (s : State P B D) : Prop where
  /-- a call that forms its request or tests `b->disk` holds the lock -/
  owner : ∀ p f st, s.pc p = .flying f st → st = .formed ∨ st = .testing → s.lock = some (.proc p)
  formed : ∀ p f st, s.pc p = .flying f st → (f.num = s.hist.posted.length ↔ st = .formed)
  buf : ∀ p b, (s.pc p).buf = some b → s.held b = some p
  /-- no wakeup is lost -/
  asleep : ∀ p f, s.pc p = .flying f .asleep → s.bufDisk f.call.buf = true

structure Inv (s : State P B D) : Prop where
  table : Table s.flights s.disk
  flow : Flow s.flights s.disk s.bufDisk s.dev s.hist
  locks : Locks s

namespace Inv

variable {s s' : State P B D} {p q : P} {f g : Flight B}

theorem init (h : Init s) : Inv s := by
  have hnone : s.flights = fun _ => none := by
    funext p
    exact congrArg Pc.flight (h.pc p)
  refine ⟨?_, ?_, ?_⟩
  · rw [hnone]
    refine ⟨nofun, nofun, nofun, fun i hi => ?_, nofun⟩
    rw [h.free i hi]
    exact ⟨nofun, fun ⟨_, _, hf, _⟩ => by cases hf⟩
  · rw [hnone, h.dev, h.hist]
    refine ⟨h.availIdx, .nil _ _, le_rfl, h.usedIdx, .nil _ _, h.seenIdx, le_rfl, .refl _, nofun, nofun, nofun, nofun, ?_,
      nofun, nofun⟩
    intro n p f hn
    simp at hn
  · refine ⟨fun p f st hp => ?_, fun p f st hp => ?_, fun p b hp => ?_, fun p f hp => ?_⟩ <;> rw [h.pc] at hp <;> cases hp

/-- Two calls have different buffers. -/
theorem buf_inj (i : Inv s) (hp : s.flights p = some f) (hq : s.flights q = some g) (he : g.call.buf = f.call.buf) :
    q = p := by
  have h1 := i.locks.buf p _ (Pc.buf_of_flight hp)
  have h2 := i.locks.buf q _ (Pc.buf_of_flight hq)
  rw [he, h1] at h2
  exact (Option.some.inj h2).symm

end Inv

/-! ## Locks -/

/-- A step of one process, or of nobody: the others stay where they are or are woken. -/
theorem Locks.step {s s' : State P B D} (l : Locks s) (me : Option P)
    (hpc : ∀ q, me ≠ some q → s'.pc q = s.pc q ∨ ∃ c, s'.pc q = (s.pc q).wakeup c)
    (hlock : ∀ q, me ≠ some q → s.lock = some (.proc q) → s'.lock = some (.proc q))
    (hnum : ∀ q f st, me ≠ some q → s.pc q = .flying f st →
      (f.num = s'.hist.posted.length ↔ f.num = s.hist.posted.length))
    (hheld : ∀ q b, me ≠ some q → (s.pc q).buf = some b → s'.held b = s.held b)
    (hflag : ∀ q f, me ≠ some q → s'.pc q = .flying f .asleep → s'.bufDisk f.call.buf = s.bufDisk f.call.buf)
    (hme : ∀ p, me = some p → (∀ f st, s'.pc p = .flying f st →
      (st = .formed ∨ st = .testing → s'.lock = some (.proc p)) ∧ (f.num = s'.hist.posted.length ↔ st = .formed) ∧
      (st = .asleep → s'.bufDisk f.call.buf = true)) ∧ ∀ b, (s'.pc p).buf = some b → s'.held b = some p) : Locks s' := by
  -- where another process was
  have hwas : ∀ q f st, me ≠ some q → s'.pc q = .flying f st →
      s.pc q = .flying f st ∨ st = .woken ∧ s.pc q = .flying f .asleep := by
    intro q f st hq hp
    rcases hpc q hq with he | ⟨c, he⟩
    · exact .inl (he ▸ hp)
    · exact Pc.of_wakeup_flying (he ▸ hp)
  refine ⟨fun q f st hp hst => ?_, fun q f st hp => ?_, fun q b hb => ?_, fun q f hp => ?_⟩
  · by_cases hq : me = some q
    · exact ((hme q hq).1 f st hp).1 hst
    · rcases hwas q f st hq hp with hp | ⟨rfl, -⟩
      · exact hlock q hq (l.owner q f st hp hst)
      · simp at hst
  · by_cases hq : me = some q
    · exact ((hme q hq).1 f st hp).2.1
    · rcases hwas q f st hq hp with hwas | ⟨rfl, hwas⟩
      · rw [hnum q f st hq hwas]
        exact l.formed q f st hwas
      · rw [hnum q f _ hq hwas, l.formed q f _ hwas]
        simp
  · by_cases hq : me = some q
    · exact (hme q hq).2 b hb
    · have hb' : (s.pc q).buf = some b := by
        rcases hpc q hq with he | ⟨c, he⟩
        · exact he ▸ hb
        · rwa [he, Pc.buf_wakeup] at hb
      rw [hheld q b hq hb']
      exact l.buf q b hb'
  · by_cases hq : me = some q
    · exact ((hme q hq).1 f _ hp).2.2 rfl
    · rw [hflag q f hq hp]
      rcases hwas q f _ hq hp with hp | ⟨he, -⟩
      · exact l.asleep q f hp
      · cases he

/-- A process goes elsewhere, with the lock or without, and some sleepers are woken. -/
theorem Locks.goto {s s' : State P B D} (l : Locks s) {p : P} {pc : Pc B} (hp : s'.pc p = pc)
    (hpc : ∀ q, q ≠ p → s'.pc q = s.pc q ∨ ∃ c, s'.pc q = (s.pc q).wakeup c) (hh : s'.hist = s.hist)
    (hheld : s'.held = s.held) (hflag : s'.bufDisk = s.bufDisk)
    (hlock : ∀ q, q ≠ p → s.lock = some (.proc q) → s'.lock = some (.proc q))
    (howner : ∀ f st, pc = .flying f st → st = .formed ∨ st = .testing → s'.lock = some (.proc p))
    (hformed : ∀ f st, pc = .flying f st → (f.num = s.hist.posted.length ↔ st = .formed))
    (hbuf : ∀ b, pc.buf = some b → s.held b = some p)
    (hasleep : ∀ f, pc = .flying f .asleep → s.bufDisk f.call.buf = true) : Locks s' := by
  have hne : ∀ q, some p ≠ some q → q ≠ p := fun q hq he => hq (by rw [he])
  refine l.step (some p) (fun q hq => hpc q (hne q hq)) (fun q hq => hlock q (hne q hq)) (fun q f st _ _ => by rw [hh])
    (fun q b _ _ => by rw [hheld]) (fun q f _ _ => by rw [hflag]) ?_
  rintro _ ⟨⟩
  refine ⟨fun f st hf => ⟨howner f st (hp ▸ hf), ?_, ?_⟩, fun b hb => ?_⟩
  · rw [hh]
    exact hformed f st (hp ▸ hf)
  · rintro rfl
    rw [hflag]
    exact hasleep f (hp ▸ hf)
  · rw [hheld]
    exact hbuf b (hp ▸ hb)

namespace Inv

variable {s s' : State P B D} {p q : P} {f g : Flight B}

/-- A step that moves no request. -/
theorem of_same (i : Inv s) (hF : s'.flights = s.flights) (hdisk : s'.disk = s.disk) (hb : s'.bufDisk = s.bufDisk)
    (hd : s'.dev = s.dev) (hh : s'.hist = s.hist) (l : Locks s') : Inv s' := by
  refine ⟨?_, ?_, l⟩
  · rw [hF, hdisk]
    exact i.table
  · rw [hF, hdisk, hb, hd, hh]
    exact i.flow

theorem flights_of_pc {st : Stage} (h : s.pc p = .flying f st) : s.flights p = some f := by
  rw [State.flights, h]
  rfl

/-! ## Steps that move no request -/

section Same

variable (i : Inv s)

include i

theorem acquiresleep {b : B} (hb : s.held b = none) : Inv { s with held := Function.update s.held b (some p) } := by
  refine i.of_same rfl rfl rfl rfl rfl (i.locks.step none (fun _ _ => .inl rfl) (fun _ _ h => h) (fun _ _ _ _ _ => .rfl)
    (fun q _ _ hq => Function.update_of_ne ?_ _ _) (fun _ _ _ _ => rfl) nofun)
  rintro rfl
  rw [i.locks.buf q _ hq] at hb
  cases hb

theorem releasesleep {b : B} (hp : s.pc p = .idle) (hb : s.held b = some p) :
    Inv { s with held := Function.update s.held b none } := by
  refine i.of_same rfl rfl rfl rfl rfl (i.locks.step none (fun _ _ => .inl rfl) (fun _ _ h => h) (fun _ _ _ _ _ => .rfl)
    (fun q _ _ hq => Function.update_of_ne ?_ _ _) (fun _ _ _ _ => rfl) nofun)
  rintro rfl
  have hqp := i.locks.buf q _ hq
  rw [hb] at hqp
  obtain rfl := Option.some.inj hqp
  rw [hp] at hq
  cases hq

theorem call {c : Call B} (hp : s.pc p = .idle) (hb : s.held c.buf = some p) : Inv (s.goto p (.entry c)) := by
  refine i.of_same (State.flights_goto_same (by simp [State.flights, hp, Pc.flight])) rfl rfl rfl rfl
    (i.locks.goto (State.pc_goto_self ..) (fun q hq => .inl (State.pc_goto_of_ne _ hq _)) rfl rfl rfl
      (fun _ _ h => h) nofun nofun ?_ nofun)
  rintro _ ⟨⟩
  exact hb

theorem wake {c : Call B} (hp : s.pc p = .waitFree c) : Inv (s.goto p (.entry c)) := by
  refine i.of_same (State.flights_goto_same (by simp [State.flights, hp, Pc.flight])) rfl rfl rfl rfl
    (i.locks.goto (State.pc_goto_self ..) (fun q hq => .inl (State.pc_goto_of_ne _ hq _)) rfl rfl rfl
      (fun _ _ h => h) nofun nofun ?_ nofun)
  rintro _ ⟨⟩
  exact i.locks.buf p _ (by rw [hp]; rfl)

/-- A call in flight goes from one stage to another, none of them the first. -/
theorem restage {st st' : Stage} {k : Option (Holder P)} (hp : s.pc p = .flying f st) (hst : st ≠ .formed)
    (hst' : st' ≠ .formed) (hlock : ∀ q, q ≠ p → s.lock = some (.proc q) → k = some (.proc q))
    (howner : st' = .testing → k = some (.proc p)) (hasleep : st' = .asleep → s.bufDisk f.call.buf = true) :
    Inv ({ s with lock := k }.goto p (.flying f st')) := by
  have hF : ({ s with lock := k }.goto p (.flying f st')).flights = s.flights :=
    State.flights_goto_same (s := { s with lock := k }) (by simp [State.flights, hp, Pc.flight])
  refine i.of_same hF rfl rfl rfl rfl
    (i.locks.goto (State.pc_goto_self ..) (fun q hq => .inl (State.pc_goto_of_ne _ hq _)) rfl rfl rfl hlock ?_ ?_ ?_ ?_)
  · rintro _ _ ⟨⟩ h
    exact howner (h.resolve_left hst')
  · rintro _ _ ⟨⟩
    rw [i.locks.formed p f st hp]
    exact iff_of_false hst hst'
  · rintro _ ⟨⟩
    exact i.locks.buf p _ (by rw [hp]; rfl)
  · rintro _ ⟨⟩
    exact hasleep rfl

/-- The lock goes from nobody or the interrupt handler to one of the two. -/
theorem relock {k : Option (Holder P)} (hlock : ∀ q, s.lock ≠ some (.proc q)) : Inv { s with lock := k } :=
  i.of_same rfl rfl rfl rfl rfl (i.locks.step none (fun _ _ => .inl rfl) (fun q _ h => absurd h (hlock q))
    (fun _ _ _ _ _ => .rfl) (fun _ _ _ _ => rfl) (fun _ _ _ _ => rfl) nofun)

end Same

/-! ## Steps that do -/

section Moves

variable (i : Inv s)

include i

/-- There are not three descriptors. -/
theorem untaken {c : Call B} (hp : s.pc p = .entry c) (hu : State.Untaken s s') : Inv (s'.goto p (.waitFree c)) := by
  have hF' : s'.flights = s.flights := by
    funext q
    rcases hu.pc q with he | he
    · exact congrArg Pc.flight he
    · exact (congrArg Pc.flight he).trans (Pc.flight_wakeup ..)
  have hF : (s'.goto p (.waitFree c)).flights = s.flights := by
    rw [← hF']
    refine State.flights_goto_same ?_
    rw [hF']
    exact (congrArg Pc.flight hp).symm
  have heq := hu.eq
  have hdisk : s'.disk = { s.disk with desc := s'.disk.desc } := congrArg State.disk heq
  have hb : s'.bufDisk = s.bufDisk := (congrArg State.bufDisk heq).trans rfl
  have hd : s'.dev = s.dev := (congrArg State.dev heq).trans rfl
  have hh : s'.hist = s.hist := (congrArg State.hist heq).trans rfl
  have hlock : s'.lock = s.lock := (congrArg State.lock heq).trans rfl
  have hheld : s'.held = s.held := (congrArg State.held heq).trans rfl
  refine ⟨?_, ?_, ?_⟩
  · rw [hF]
    change Table s.flights s'.disk
    exact i.table.frame (by rw [hdisk]) (by rw [hdisk]) hu.desc fun k => by rw [hdisk]
  · rw [hF]
    change Flow s.flights s'.disk s'.bufDisk s'.dev s'.hist
    rw [hb, hd, hh]
    exact i.flow.frame (by rw [hdisk]; exact ⟨rfl, rfl, rfl, rfl, rfl⟩) fun k => by rw [hdisk]
  · refine i.locks.goto (State.pc_goto_self ..) (fun q hq => ?_) hh hheld hb (fun q _ h => hlock ▸ h) nofun nofun ?_ nofun
    · rw [State.pc_goto_of_ne _ hq]
      exact (hu.pc q).imp_right fun h => ⟨_, h⟩
    · rintro _ ⟨⟩
      exact i.locks.buf p _ (by rw [hp]; rfl)

/-- A call gets its descriptors. -/
theorem format {c : Call B} {x : Idx} (hp : s.pc p = .entry c) (hlock : s.lock = none) (hn : x.toList.Nodup)
    (hx : ∀ k ∈ x.toList, k < NUM ∧ s.disk.free k = true) :
    Inv ({ State.format { s with disk := { s.disk with free := x.fill false s.disk.free } } c x with
      lock := some (.proc p) }.goto p (.flying ⟨c, x, s.hist.posted.length⟩ .formed)) := by
  have hnone : s.flights p = none := by rw [State.flights, hp]; rfl
  have hmine : s.held c.buf = some p := i.locks.buf p _ (by rw [hp]; rfl)
  have hbuf : ∀ q b, q ≠ p → (s.pc q).buf = some b → b ≠ c.buf := by
    rintro q b hq hb rfl
    rw [i.locks.buf q _ hb] at hmine
    exact hq (Option.some.inj hmine)
  have hunformed : ∀ q g st, s.pc q = .flying g st → g.num ≠ s.hist.posted.length := by
    intro q g st hq he
    have := i.locks.owner q g st hq (.inl ((i.locks.formed q g st hq).mp he))
    rw [hlock] at this
    cases this
  have h0 : x.i0 ∈ x.toList := by simp [Idx.mem_toList]
  obtain ⟨h01, h02, h12⟩ := Idx.nodup_toList.mp hn
  have hF : ({ State.format { s with disk := { s.disk with free := x.fill false s.disk.free } } c x with
      lock := some (.proc p) }.goto p (.flying ⟨c, x, s.hist.posted.length⟩ .formed)).flights =
      Function.update s.flights p (some ⟨c, x, s.hist.posted.length⟩) := State.flights_goto ..
  refine ⟨?_, ?_, ?_⟩
  · rw [hF]
    refine i.table.add hnone hn hx rfl (fun k hk => ?_) (fun k hk => ?_) (fun k hk => ?_) ⟨?_, ?_, ?_, ?_, ?_⟩
    all_goals simp only [Idx.mem_toList, not_or] at *
    all_goals simp [State.goto, State.format, State.setDesc, State.setInfo, *]
  · rw [hF]
    refine i.flow.form i.table hnone rfl (fun q g hq => ?_) (fun q g hq => ?_) (hx _ h0).1 (hx _ h0).2 ?_ ⟨rfl, rfl, rfl, rfl⟩
      fun k hk => Function.update_of_ne hk _ _
    · obtain ⟨st, hst⟩ := Pc.flight_eq_some hq
      exact hunformed q g st hst
    · refine hbuf q _ ?_ (Pc.buf_of_flight hq)
      rintro rfl
      rw [hnone] at hq
      cases hq
    · change Function.update s.disk.availRing (s.disk.availIdx.toNat % NUM) x.i0 = _
      rw [i.flow.availIdx, toNat_ofNat_mod (by decide)]
  · have hne : ∀ q, some p ≠ some q → q ≠ p := fun q hq he => hq (by rw [he])
    refine i.locks.step (some p) (fun q hq => .inl (State.pc_goto_of_ne _ (hne q hq) _)) (fun q _ h => ?_)
      (fun _ _ _ _ _ => .rfl) (fun _ _ _ _ => rfl) (fun q g hq hg => ?_) ?_
    · rw [hlock] at h
      cases h
    · rw [State.pc_goto_of_ne _ (hne q hq)] at hg
      exact Function.update_of_ne (hbuf q _ (hne q hq) (Pc.buf_of_flight (flights_of_pc hg))) _ _
    · rintro _ ⟨⟩
      simp only [State.pc_goto_self]
      refine ⟨?_, ?_⟩
      · rintro _ _ ⟨⟩
        exact ⟨fun _ => rfl, iff_of_true rfl rfl, by simp⟩
      · rintro _ ⟨⟩
        exact hmine

/-- The request is posted. -/
theorem post (hp : s.pc p = .flying f .formed) : Inv (s.post p f) := by
  have hnum := (i.locks.formed p f _ hp).mpr rfl
  have hlock := i.locks.owner p f _ hp (.inl rfl)
  have honly : ∀ q g st, s.pc q = .flying g st → g.num = s.hist.posted.length → q = p := by
    intro q g st hq he
    have hown := i.locks.owner q g st hq (.inl ((i.locks.formed q g st hq).mp he))
    rw [hlock] at hown
    cases hown
    rfl
  have hF : (s.post p f).flights = s.flights :=
    State.flights_goto_same (s := { s with
      disk := { s.disk with availIdx := s.disk.availIdx + 1 }
      hist := { s.hist with posted := s.hist.posted ++ [(p, f)] } }) (by simp [State.flights, hp, Pc.flight])
  have hlen : (s.post p f).hist.posted.length = s.hist.posted.length + 1 := by simp [State.post, State.goto]
  refine ⟨?_, ?_, ?_⟩
  · rw [hF]
    exact i.table.frame rfl rfl (fun _ _ => rfl) fun _ => rfl
  · rw [hF]
    refine i.flow.post (flights_of_pc hp) hnum fun q g hq he => ?_
    obtain ⟨st, hst⟩ := Pc.flight_eq_some hq
    exact honly q g st hst he
  · have hne : ∀ q, some p ≠ some q → q ≠ p := fun q hq he => hq (by rw [he])
    refine i.locks.step (some p) (fun q hq => .inl (State.pc_goto_of_ne _ (hne q hq) _)) (fun _ _ h => h)
      (fun q g st hq hg => ?_) (fun _ _ _ _ => rfl) (fun _ _ _ _ => rfl) ?_
    · have hle := i.flow.num_le q g (flights_of_pc hg)
      have hnot := fun he => hne q hq (honly q g st hg he)
      rw [hlen]
      exact iff_of_false (by omega) hnot
    · rintro _ ⟨⟩
      simp only [State.post, State.pc_goto_self]
      refine ⟨?_, ?_⟩
      · rintro _ _ ⟨⟩
        refine ⟨fun _ => hlock, iff_of_false ?_ (by simp), by simp⟩
        simp only [State.goto, List.length_append, List.length_singleton]
        omega
      · rintro _ ⟨⟩
        exact i.locks.buf p _ (by rw [hp]; rfl)

/-- A call whose flag is clear frees its chain and returns. -/
theorem finish (hp : s.pc p = .flying f .testing) (hflag : s.bufDisk f.call.buf = false) :
    s.finish p f = .ok (s.returned p f) ∧ Inv (s.returned p f) := by
  have hfly := flights_of_pc hp
  have hlock := i.locks.owner p f _ hp (.inr rfl)
  have hF : (s.returned p f).flights = Function.update s.flights p none := by
    rw [State.returned, State.flights_goto, State.flights_wakeup]
    rfl
  refine ⟨i.table.finish_eq hfly, ?_, ?_, ?_⟩
  · rw [hF]
    refine i.table.remove hfly rfl (fun _ _ => rfl) (fun k hk => if_neg hk) fun k hk => ?_
    have hk0 : k ≠ f.idx.i0 := fun he => hk (by simp [Idx.mem_toList, he])
    exact congrArg Info.b (Function.update_of_ne hk0 _ _)
  · rw [hF]
    refine i.flow.finish hfly hflag ⟨rfl, rfl, rfl, rfl, rfl⟩ fun k => ?_
    change (Function.update s.disk.info f.idx.i0 { s.disk.info f.idx.i0 with b := none } k).status = _
    by_cases hk : k = f.idx.i0
    · rw [hk, Function.update_self]
    · rw [Function.update_of_ne hk]
  · refine i.locks.goto (State.pc_goto_self ..) (fun q hq => .inr ⟨.free, State.pc_goto_of_ne _ hq _⟩) rfl rfl rfl
      (fun q hq h => ?_) nofun nofun nofun nofun
    rw [hlock] at h
    cases h
    exact absurd rfl hq

end Moves

/-! ## The interrupt handler and the device -/

section Device

variable (i : Inv s)

include i

/-- What virtio_disk_intr finds when the indices differ. -/
theorem next_completion (hne : s.disk.seenIdx ≠ s.disk.usedIdx) :
    ∃ j q g, s.hist.completed[s.hist.handled]? = some j ∧ s.hist.posted[j.num]? = some (q, g) ∧
      s.flights q = some g ∧ g.num = j.num ∧ s.bufDisk g.call.buf = true ∧
      s.disk.usedRing (s.disk.seenIdx.toNat % NUM) = g.idx.i0 ∧ s.disk.info g.idx.i0 = ⟨some g.call.buf, 0⟩ := by
  have hlt : s.hist.handled < s.hist.completed.length := by
    have := (i.flow.seenIdx_eq_iff i.table).not.mp hne
    have := i.flow.handled
    omega
  have hj := List.getElem?_eq_getElem hlt
  have hmem : s.hist.completed[s.hist.handled] ∈ s.hist.completed.drop s.hist.handled := by
    rw [List.drop_eq_getElem_cons hlt]
    exact List.mem_cons_self
  obtain ⟨q, g, hpost, hhead, hq, hnum⟩ := i.flow.flight_of_job (List.mem_append_right _ hmem)
  refine ⟨_, q, g, hj, hpost, hq, hnum, ?_, ?_, ?_⟩
  · rw [i.flow.flag q g hq, hnum]
    exact i.flow.job_not_past (List.mem_append_right _ hmem)
  · rw [i.flow.seenIdx, toNat_ofNat_mod (by decide), ← hhead]
    exact i.flow.used _ _ le_rfl (by rw [List.getElem?_map, hj]; rfl)
  · have hst := i.flow.status _ (List.mem_append_right _ hmem)
    have hb := (i.table.formed q g hq).info
    rw [hhead] at hst
    rw [← hst, ← hb]

/-- virtio_disk_intr handles the next completion. -/
theorem handle {j : Job} (hj : s.hist.completed[s.hist.handled]? = some j) (hq : s.flights q = some g)
    (hnum : g.num = j.num) :
    Inv { { s with bufDisk := Function.update s.bufDisk g.call.buf false }.wakeup (.buf g.call.buf) with
      disk := { s.disk with seenIdx := s.disk.seenIdx + 1 }
      hist := { s.hist with handled := s.hist.handled + 1 } } := by
  have hF : ({ { s with bufDisk := Function.update s.bufDisk g.call.buf false }.wakeup (.buf g.call.buf) with
      disk := { s.disk with seenIdx := s.disk.seenIdx + 1 }
      hist := { s.hist with handled := s.hist.handled + 1 } }).flights = s.flights :=
    State.flights_wakeup s (.buf g.call.buf)
  refine ⟨?_, ?_, ?_⟩
  · rw [hF]
    exact i.table.frame rfl rfl (fun _ _ => rfl) fun _ => rfl
  · rw [hF]
    exact i.flow.handle hj hq hnum fun r g' hr he => i.buf_inj hq hr he
  · refine i.locks.step none (fun _ _ => .inr ⟨.buf g.call.buf, rfl⟩) (fun _ _ h => h) (fun _ _ _ _ _ => .rfl)
      (fun _ _ _ _ => rfl) (fun r g' _ hr => Function.update_of_ne ?_ _ _) nofun
    -- a sleeper on this buffer has been woken
    intro he
    have hwoken : (s.pc r).wakeup (.buf g.call.buf) = .flying g' .asleep := hr
    rw [← he] at hwoken
    rcases Pc.of_wakeup_flying hwoken with hr' | ⟨h, -⟩
    · rw [hr', Pc.wakeup, if_pos rfl] at hwoken
      cases hwoken
    · cases h

theorem fetch (hne : UInt16.ofNat s.dev.fetched ≠ s.disk.availIdx) :
    Inv { s with dev := { s.dev with
      fetched := s.dev.fetched + 1
      taken := s.dev.taken ++ [⟨s.dev.fetched, s.disk.availRing ((UInt16.ofNat s.dev.fetched).toNat % NUM)⟩] } } := by
  have hlt : s.dev.fetched < s.hist.posted.length := by
    have := (i.flow.availIdx_eq_iff i.table).not.mp hne
    have := i.flow.fetched
    omega
  refine ⟨i.table, ?_, ⟨i.locks.owner, i.locks.formed, i.locks.buf, i.locks.asleep⟩⟩
  rw [toNat_ofNat_mod (by decide)]
  exact i.flow.fetch hlt

theorem complete {k : Nat} {j : Job} (hj : s.dev.done[k]? = some j) :
    Inv { s with
      dev := { s.dev with done := s.dev.done.eraseIdx k }
      disk := { s.disk with
        usedRing := Function.update s.disk.usedRing (s.disk.usedIdx.toNat % NUM) j.head
        usedIdx := s.disk.usedIdx + 1 }
      hist := { s.hist with completed := s.hist.completed ++ [j] } } := by
  refine ⟨i.table.frame rfl rfl (fun _ _ => rfl) fun _ => rfl, ?_,
    ⟨i.locks.owner, i.locks.formed, i.locks.buf, i.locks.asleep⟩⟩
  rw [i.flow.usedIdx, toNat_ofNat_mod (by decide), ← i.flow.usedIdx]
  exact i.flow.complete i.table hj

/-- The device finds its request, that of a call in flight. -/
theorem perform {k : Nat} {j : Job} (hj : s.dev.taken[k]? = some j) :
    ∃ s', s.perform k = .ok s' ∧ Inv s' ∧ s'.bufDisk = s.bufDisk ∧ s'.pc = s.pc ∧ s'.hist = s.hist := by
  have hmem : j ∈ s.dev.taken := List.mem_of_getElem? hj
  obtain ⟨q, g, -, hhead, hq, -⟩ :=
    i.flow.flight_of_job (List.mem_append_left _ (List.mem_append_left _ hmem))
  have hchain := (i.table.formed q g hq).chainAt
  -- the request's data aside, both directions leave the same
  have hkeep : ∀ (data : B → D) (media : UInt64 → D), Inv { s with
      disk := { s.disk with info := Function.update s.disk.info g.idx.i0 { s.disk.info g.idx.i0 with status := 0 } }
      dev := { s.dev with taken := s.dev.taken.eraseIdx k, done := s.dev.done ++ [j] }
      data := data
      media := media } := by
    intro data media
    refine ⟨i.table.frame rfl rfl (fun _ _ => rfl) fun m => ?_, ?_, ⟨i.locks.owner, i.locks.formed, i.locks.buf, i.locks.asleep⟩⟩
    · by_cases hm : m = g.idx.i0
      · simp [hm]
      · simp [Function.update_of_ne hm]
    · refine i.flow.perform hj (fun m hm => ?_) ?_ ⟨rfl, rfl, rfl, rfl, rfl⟩
      · rw [hhead] at hm
        simp [Function.update_of_ne hm]
      · simp [hhead]
  simp only [State.perform, hj, hhead, hchain]
  split
  · exact ⟨_, rfl, hkeep _ _, rfl, rfl, rfl⟩
  · exact ⟨_, rfl, hkeep _ _, rfl, rfl, rfl⟩

end Device

end Inv

/-! ## Every step -/

/-- The next completion is handled: the flag of its own request's buffer was set and is cleared, no other is. -/
def Handles (s s' : State P B D) : Prop :=
  ∃ j q g, s.hist.completed[s.hist.handled]? = some j ∧ s.hist.posted[j.num]? = some (q, g) ∧ s.flights q = some g ∧
    s.bufDisk g.call.buf = true ∧ s'.bufDisk = Function.update s.bufDisk g.call.buf false ∧
    s'.hist.handled = s.hist.handled + 1

/-- No completion is handled and no flag cleared. -/
structure Stays (s s' : State P B D) : Prop where
  flag : ∀ b, s.bufDisk b = true → s'.bufDisk b = true
  handled : s'.hist.handled = s.hist.handled

/-- What a step does. -/
structure Moved (s : State P B D) (l : Label P B D) (s' : State P B D) : Prop where
  /-- the loop of virtio_disk_intr handles a completion while there is one -/
  handles : l = .intrLoop → s.hist.handled ≠ s.hist.completed.length → Handles s s'
  stays : l ≠ .intrLoop ∨ s.hist.handled = s.hist.completed.length → Stays s s'
  /-- a call that returns was posted, and its completion has been handled -/
  returns : ∀ p, s.pc p ≠ .idle → s'.pc p = .idle →
    ∃ f, s.flights p = some f ∧ s.hist.posted[f.num]? = some (p, f) ∧ f.num ∈ s.hist.past

theorem Pc.wakeup_ne_idle {pc : Pc B} {c : Chan B} (h : pc ≠ .idle) : pc.wakeup c ≠ .idle := by
  unfold Pc.wakeup
  split
  · split <;> exact nofun
  · split <;> exact nofun
  · exact h

/-- A step of the others, in which nobody returns. -/
theorem Moved.of_stays {s s' : State P B D} {l : Label P B D} (hl : l ≠ .intrLoop) (h : Stays s s')
    (hpc : ∀ p, s.pc p ≠ .idle → s'.pc p ≠ .idle) : Moved s l s' :=
  ⟨fun he => absurd he hl, fun _ => h, fun p hp hp' => absurd hp' (hpc p hp)⟩

theorem State.goto_ne_idle {s : State P B D} {p : P} {pc : Pc B} (hpc : pc ≠ .idle) (q : P) (hq : s.pc q ≠ .idle) :
    (s.goto p pc).pc q ≠ .idle := by
  by_cases h : q = p
  · subst h
    rwa [State.pc_goto_self]
  · rwa [State.pc_goto_of_ne _ h]

/-- The step is not enabled, or it is taken without a panic and does this. -/
def Sound (s : State P B D) (l : Label P B D) : Prop :=
  step s l = .disabled ∨ ∃ s', step s l = .ok s' ∧ Inv s' ∧ Moved s l s'

namespace Inv

variable {s : State P B D} {p : P}

theorem enter {c : Call B} (i : Inv s) (hp : s.pc p = .entry c) (hlock : s.lock = none) :
    ∃ s', s.enter p c = .ok s' ∧ Inv s' ∧ Stays s s' ∧ ∀ q, s.pc q ≠ .idle → s'.pc q ≠ .idle := by
  rcases s.alloc3Desc_cases with ⟨x, hn, hx, he⟩ | ⟨s', hu, he⟩
  · refine ⟨_, by rw [State.enter, he], i.format hp hlock hn hx, ⟨fun b hb => ?_, rfl⟩, State.goto_ne_idle nofun⟩
    change Function.update s.bufDisk c.buf true b = true
    by_cases h : b = c.buf
    · rw [h, Function.update_self]
    · rwa [Function.update_of_ne h]
  · refine ⟨_, by rw [State.enter, he], i.untaken hp hu, ⟨fun b hb => ?_, ?_⟩, fun q hq => ?_⟩
    · exact (congrFun ((congrArg State.bufDisk hu.eq).trans rfl) b).trans hb
    · exact congrArg Hist.handled ((congrArg State.hist hu.eq).trans rfl)
    · refine @State.goto_ne_idle _ _ _ _ _ s' p (.waitFree c) nofun q ?_
      rcases hu.pc q with he | he
      · rwa [he]
      · rw [he]
        exact Pc.wakeup_ne_idle hq

theorem run (i : Inv s) (p : P) : Sound s (.run p) := by
  have hl : (.run p : Label P B D) ≠ .intrLoop := nofun
  simp only [Sound, step, State.run]
  split
  · exact .inl rfl
  · next c hp =>
    split
    · next hlock =>
      obtain ⟨s', he, hi, hst, hpc⟩ := i.enter hp hlock
      exact .inr ⟨s', he, hi, .of_stays hl hst hpc⟩
    · exact .inl rfl
  · exact .inl rfl
  · next f hp => exact .inr ⟨_, rfl, i.post hp, .of_stays hl ⟨fun _ h => h, rfl⟩ (State.goto_ne_idle nofun)⟩
  · next f hp =>
    have hlock := i.locks.owner p f _ hp (.inr rfl)
    rw [State.test]
    split
    · next hflag =>
      refine .inr ⟨_, rfl, i.restage hp nofun nofun (fun q hq h => ?_) nofun fun _ => hflag,
        .of_stays hl ⟨fun _ h => h, rfl⟩ (State.goto_ne_idle nofun)⟩
      rw [hlock] at h
      cases h
      exact absurd rfl hq
    · next hflag =>
      obtain ⟨he, hi⟩ := i.finish hp (by simpa using hflag)
      refine .inr ⟨_, he, hi, fun h => absurd h hl, fun _ => ⟨fun _ h => h, rfl⟩, fun q hq hq' => ?_⟩
      have hfly := flights_of_pc hp
      have hpast : f.num ∈ s.hist.past := by
        by_contra hn
        exact hflag ((i.flow.flag p f hfly).mpr hn)
      by_cases hqp : q = p
      · subst hqp
        refine ⟨f, hfly, i.flow.posted q f hfly ?_, hpast⟩
        by_contra hge
        exact i.flow.not_past (i.flow.fetched.trans (not_lt.mp hge)) hpast
      · rw [State.returned, State.pc_goto_of_ne _ hqp] at hq'
        exact absurd hq' (Pc.wakeup_ne_idle hq)
  · exact .inl rfl
  · next f hp =>
    split
    · next hlock =>
      refine .inr ⟨_, rfl, i.restage hp nofun nofun (fun q _ h => ?_) (fun _ => rfl) nofun,
        .of_stays hl ⟨fun _ h => h, rfl⟩ (State.goto_ne_idle nofun)⟩
      rw [hlock] at h
      cases h
    · exact .inl rfl

theorem kill (i : Inv s) (p : P) : Sound s (.kill p) := by
  have hl : (.kill p : Label P B D) ≠ .intrLoop := nofun
  simp only [Sound, step]
  split
  · next c hp => exact .inr ⟨_, rfl, i.wake hp, .of_stays hl ⟨fun _ h => h, rfl⟩ (State.goto_ne_idle nofun)⟩
  · next f hp =>
    exact .inr ⟨_, rfl, i.restage hp nofun nofun (fun _ _ h => h) nofun nofun,
      .of_stays hl ⟨fun _ h => h, rfl⟩ (State.goto_ne_idle nofun)⟩
  · exact .inl rfl

theorem intrLoop (i : Inv s) : Sound s .intrLoop := by
  simp only [Sound, step]
  split
  · next hlock =>
    rw [State.intrLoop]
    split
    · next hne =>
      obtain ⟨j, q, g, hj, hpost, hq, hnum, hflag, hring, hinfo⟩ := i.next_completion hne
      simp only [hring, hinfo, ne_eq, not_true_eq_false, if_false]
      refine .inr ⟨_, rfl, i.handle hj hq hnum, fun _ _ => ⟨j, q, g, hj, hpost, hq, hflag, rfl, rfl⟩, fun h => ?_,
        fun r hr hr' => absurd hr' (Pc.wakeup_ne_idle hr)⟩
      rcases h with h | h
      · exact absurd rfl h
      · exact absurd ((i.flow.seenIdx_eq_iff i.table).mpr h) hne
    · next heq =>
      have hall := (i.flow.seenIdx_eq_iff i.table).mp (not_not.mp heq)
      refine .inr ⟨_, rfl, i.relock fun q => by rw [hlock]; exact nofun, fun _ h => absurd hall h,
        fun _ => ⟨fun _ h => h, rfl⟩, fun _ h h' => absurd h' h⟩
  · exact .inl rfl

/-- **Every step.** -/
theorem sound (i : Inv s) (l : Label P B D) : Sound s l := by
  cases l with
  | run p => exact i.run p
  | kill p => exact i.kill p
  | intrLoop => exact i.intrLoop
  | acquiresleep p b =>
    simp only [Sound, step]
    split
    · next h => exact .inr ⟨_, rfl, i.acquiresleep h.2, .of_stays nofun ⟨fun _ h => h, rfl⟩ fun _ h => h⟩
    · exact .inl rfl
  | releasesleep p b =>
    simp only [Sound, step]
    split
    · next h => exact .inr ⟨_, rfl, i.releasesleep h.1 h.2, .of_stays nofun ⟨fun _ h => h, rfl⟩ fun _ h => h⟩
    · exact .inl rfl
  | fill p b v =>
    simp only [Sound, step]
    split
    · refine .inr ⟨_, rfl, i.of_same rfl rfl rfl rfl rfl ?_, .of_stays nofun ⟨fun _ h => h, rfl⟩ fun _ h => h⟩
      exact ⟨i.locks.owner, i.locks.formed, i.locks.buf, i.locks.asleep⟩
    · exact .inl rfl
  | call p c =>
    simp only [Sound, step]
    split
    · next h => exact .inr ⟨_, rfl, i.call h.1 h.2, .of_stays nofun ⟨fun _ h => h, rfl⟩ (State.goto_ne_idle nofun)⟩
    · exact .inl rfl
  | intr =>
    simp only [Sound, step]
    split
    · next h =>
      exact .inr ⟨_, rfl, i.relock fun q => by rw [h]; exact nofun, .of_stays nofun ⟨fun _ h => h, rfl⟩ fun _ h => h⟩
    · exact .inl rfl
  | fetch =>
    simp only [Sound, step, State.fetch]
    split
    · exact .inl rfl
    · next hne => exact .inr ⟨_, rfl, i.fetch hne, .of_stays nofun ⟨fun _ h => h, rfl⟩ fun _ h => h⟩
  | perform k =>
    cases hj : s.dev.taken[k]? with
    | none => exact .inl (by simp only [step, State.perform, hj])
    | some j =>
      obtain ⟨s', he, hi, hb, hpc, hh⟩ := i.perform hj
      refine .inr ⟨s', he, hi, .of_stays nofun ⟨fun b h => ?_, by rw [hh]⟩ fun q h => ?_⟩
      · rwa [hb]
      · rwa [hpc]
  | complete k =>
    cases hj : s.dev.done[k]? with
    | none => exact .inl (by simp only [step, State.complete, hj])
    | some j =>
      exact .inr ⟨_, by simp only [step, State.complete, hj], i.complete hj,
        .of_stays nofun ⟨fun _ h => h, rfl⟩ fun _ h => h⟩

theorem of_reach (h : Reach step Init s) : Inv s := by
  refine h.invariant (fun s hs => init hs) fun s l s' hi he => ?_
  rcases hi.sound l with hd | ⟨s'', he', hi', -⟩
  · rw [hd] at he
    cases he
  · rw [he] at he'
    cases he'
    exact hi'

end Inv

/-! ## The result -/

/-- What the driver and the device can rely on in a state, and in the steps from it. -/
structure Safe (s : State P B D) : Prop where
  /-- a call in flight has three descriptors, -/
  three : ∀ p f, s.flights p = some f → f.idx.toList.Nodup ∧ ∀ i ∈ f.idx.toList, i < NUM
  /-- which no other one has, -/
  disjoint : ∀ p q f g, p ≠ q → s.flights p = some f → s.flights q = some g → f.idx.toList.Disjoint g.idx.toList
  /-- and the others are free -/
  free : ∀ i < NUM, s.disk.free i = true ↔ ∀ p f, s.flights p = some f → i ∉ f.idx.toList
  /-- a request is completed once, by the head it was posted with -/
  once : (s.hist.completed.map Job.num).Nodup
  head : ∀ j ∈ s.hist.completed, ∃ p f, s.hist.posted[j.num]? = some (p, f) ∧ j.head = f.idx.i0
  /-- the handler is never ahead, and its loop ends exactly when there is nothing left -/
  handled : s.hist.handled ≤ s.hist.completed.length
  seen : s.disk.seenIdx = s.disk.usedIdx ↔ s.hist.handled = s.hist.completed.length
  /-- `b->disk` of a call in flight is clear exactly when the completion of its own request has been handled -/
  flag : ∀ p f, s.flights p = some f → (s.bufDisk f.call.buf = false ↔ f.num ∈ s.hist.past)
  /-- no wakeup is lost -/
  asleep : ∀ p f, s.pc p = .flying f .asleep → s.bufDisk f.call.buf = true
  moved : ∀ l s', step s l = .ok s' → Moved s l s'
  no_panic : ∀ l m, step s l ≠ .panic m

/-- **The request and completion protocol.** -/
theorem rw_protocol {s : State P B D} (h : Reach step Init s) : Safe s := by
  have i := Inv.of_reach h
  refine ⟨fun p f hp => ⟨i.table.nodup p f hp, i.table.lt p f hp⟩, fun p q f g hne hp hq k hk hk' => ?_, fun k hk => ?_,
    ?_, fun j hj => ?_, i.flow.handled, i.flow.seenIdx_eq_iff i.table, fun p f hp => ?_, i.locks.asleep,
    fun l s' he => ?_, fun l m he => ?_⟩
  · exact hne (i.table.disjoint p q f g k hp hq hk hk')
  · have hfree := (i.table.free k hk).not
    rw [Bool.not_eq_false] at hfree
    rw [hfree]
    constructor
    · exact fun h p f hp hk => h ⟨p, f, hp, hk⟩
    · rintro h ⟨p, f, hp, hk⟩
      exact h p f hp hk
  · exact i.flow.nodup.sublist ((List.sublist_append_right _ _).map _)
  · exact i.flow.head j (List.mem_append_right _ hj)
  · rw [← not_iff_not, Bool.not_eq_false]
    exact i.flow.flag p f hp
  · rcases i.sound l with hd | ⟨s'', he', -, hm⟩
    · rw [hd] at he
      cases he
    · rw [he] at he'
      cases he'
      exact hm
  · rcases i.sound l with hd | ⟨s'', he', -⟩
    · rw [hd] at he
      cases he
    · rw [he] at he'
      cases he'

/-- Two processes, two buffers, after virtio_disk_init. -/
def demo : State Bool Bool Nat where
  disk := ⟨fun _ => ⟨.null, 0, 0, 0⟩, 0, fun _ => 0, 0, fun _ => 0, fun _ => true, 0, fun _ => ⟨none, 0⟩, fun _ => ⟨0, 0, 0⟩⟩
  bufDisk _ := false
  data _ := 0
  media n := n.toNat
  lock := none
  held _ := none
  pc _ := .idle
  dev := ⟨0, [], []⟩
  hist := ⟨[], [], 0⟩

/-- Both processes read a block, the first goes to sleep, and the device completes the second request only. -/
def demoRun : List (Label Bool Bool Nat) :=
  [.acquiresleep true true, .acquiresleep false false, .call true ⟨true, 5, false⟩, .call false ⟨false, 6, false⟩,
    .run true, .run true, .run true, .run false, .run false, .run false, .fetch, .fetch, .perform 1, .complete 0]

def demoAfter (as : List (Label Bool Bool Nat)) : State Bool Bool Nat :=
  match runs step demo as with
  | .ok s => s
  | _ => demo

theorem rw_protocol_out_of_order :
    (demoAfter demoRun).flights true = some ⟨⟨true, 5, false⟩, ⟨0, 1, 2⟩, 0⟩ ∧
    (demoAfter demoRun).flights false = some ⟨⟨false, 6, false⟩, ⟨3, 4, 5⟩, 1⟩ ∧
    (demoAfter demoRun).hist.completed = [⟨1, 3⟩] ∧ (demoAfter demoRun).data false = 12 ∧ Safe (demoAfter demoRun) := by
  have hinit : Init demo := ⟨fun _ _ => rfl, rfl, rfl, rfl, rfl, fun _ => rfl, rfl, rfl⟩
  have hruns : runs step demo demoRun = .ok (demoAfter demoRun) := by rfl
  exact ⟨by decide +kernel, by decide +kernel, by decide +kernel, by decide +kernel,
    rw_protocol ((Reach.init hinit).of_runs hruns)⟩

/-- Where the request `n` can be, and the step that is next for it. -/
inductive Underway (s : State P B D) (n : Nat) : Prop
  | posted {s'} (hn : s.dev.fetched ≤ n) (he : step s .fetch = .ok s')
  | taken {k j s'} (hj : s.dev.taken[k]? = some j) (hn : j.num = n) (he : step s (.perform k) = .ok s')
  | done {k j s'} (hj : s.dev.done[k]? = some j) (hn : j.num = n) (he : step s (.complete k) = .ok s')
  | used {j} (hj : j ∈ s.hist.completed.drop s.hist.handled) (hn : j.num = n) (he : s.disk.seenIdx ≠ s.disk.usedIdx)

/-- **A process asleep for its request** is not forgotten: the device can go on with it, or the handler will find it. -/
theorem sleeper_underway {s : State P B D} {p : P} {f : Flight B} (h : Reach step Init s)
    (hp : s.pc p = .flying f .asleep) : Underway s f.num := by
  have i := Inv.of_reach h
  have hF := Inv.flights_of_pc hp
  have hpast := (i.flow.flag p f hF).mp (i.locks.asleep p f hp)
  have hlt := (i.flow.num_le p f hF).lt_of_ne (mt (i.locks.formed p f _ hp).mp (by simp))
  by_cases hn : s.dev.fetched ≤ f.num
  · exact .posted hn (if_neg (mt (i.flow.availIdx_eq_iff i.table).mp (by omega)))
  obtain ⟨j, hj, hnum⟩ := List.mem_map.mp (i.flow.jobs.mem_iff.mpr (List.mem_range.mpr (Nat.not_le.mp hn)))
  rw [← List.take_append_drop s.hist.handled s.hist.completed] at hj
  simp only [List.mem_append] at hj
  obtain (hj | hj) | hj | hj := hj
  · obtain ⟨k, hk⟩ := List.mem_iff_getElem?.mp hj
    obtain ⟨s', he, -⟩ := i.perform hk
    exact .taken hk hnum he
  · obtain ⟨k, hk⟩ := List.mem_iff_getElem?.mp hj
    exact .done hk hnum (by simp only [step, State.complete, hk]; rfl)
  · exact absurd (List.mem_map.mpr ⟨j, hj, hnum⟩) hpast
  · refine .used hj hnum (mt (i.flow.seenIdx_eq_iff i.table).mp fun he => ?_)
    rw [he, List.drop_length] at hj
    cases hj

theorem sleeper_underway_first : Underway (demoAfter demoRun) 0 := by
  have hinit : Init demo := ⟨fun _ _ => rfl, rfl, rfl, rfl, rfl, fun _ => rfl, rfl, rfl⟩
  have hr : Reach step Init (demoAfter demoRun) := (Reach.init hinit).of_runs (rfl : runs step demo demoRun = _)
  have hp : (demoAfter demoRun).pc true = .flying ⟨⟨true, 5, false⟩, ⟨0, 1, 2⟩, 0⟩ .asleep := by decide +kernel
  exact sleeper_underway hr hp

end Xv6.Virtio
