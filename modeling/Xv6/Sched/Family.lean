/-
The family tree over whole runs. A process's parent is alive, is the process that created
it, or is init once that one is in exit; a process that has exited is a zombie until one
wait returns it. `delivery` says so of every reachable state.
-/
import Xv6.Sched.Record

namespace Xv6.Sched

open Lib

/-- A process that has exited or is in exit, past the point where its children are given away. -/
def St.Gone (s : St) (u : Nat) : Prop :=
  goneUid s.log u = true ∨
  ∃ p, Alive (s.proc p).state = true ∧ (s.proc p).uid = u ∧ ∃ f ∈ s.frames (.kstack p), f.exiting = true

structure Family (s : St) : Prop where
  knows : ∀ p, Alive (s.proc p).state = true → ∀ f ∈ s.frames (.kstack p), f.Knows s
  unused : ∀ q, (s.proc q).state = .UNUSED → (s.proc q).parent = none
  parent : ∀ q r, (s.proc q).parent = some r → Alive (s.proc r).state = true ∧ (s.proc q).parentUid = (s.proc r).uid ∧
    ((s.proc r).uid = (s.proc q).creator ∨ r = s.initproc ∧ s.Gone (s.proc q).creator)
  linked : ∀ q, q ≠ s.initproc → (s.proc q).state ≠ .UNUSED → (s.proc q).state ≠ .USED → (s.proc q).parent ≠ none
  init : Alive (s.proc s.initproc).state = true ∧ (s.proc s.initproc).uid = 0

/-! ## Who else is there -/

/-- A frame of p that the step of `c` leaves alone. -/
def Bystander (s : St) (c : Fin NCPU) (rest : List Frame) (p : Fin NPROC) (g : Frame) : Prop :=
  (s.cpu c).cur ≠ .kstack p ∧ g ∈ s.frames (.kstack p) ∨ (s.cpu c).cur = .kstack p ∧ g ∈ rest

section Bystander

variable {s : St} {c : Fin NCPU} {f g : Frame} {rest : List Frame} {p : Fin NPROC}

theorem Bystander.mem (hb : Bystander s c rest p g) (hon : s.frames (s.cpu c).cur = f :: rest) : g ∈ s.frames (.kstack p) := by
  rcases hb with ⟨-, hg⟩ | ⟨hc, hg⟩
  · exact hg
  · rw [← hc, hon]
    exact List.mem_cons_of_mem _ hg

theorem Placed.alive_cases (h : Placed s) (ha : Alive (s.proc p).state = true) :
    (∃ d, (s.cpu d).cur = .kstack p) ∨ ∃ x xs, s.frames (.kstack p) = x :: xs ∧ x.Resumes p := by
  have hst := h.state p
  unfold St.StateOk at hst
  split at hst
  · exact .inl hst
  · exact .inr hst.2.2
  · exact .inr hst.2.2
  · next he =>
    rw [he] at ha
    cases ha
  · next he =>
    rw [he] at ha
    cases ha
  · next he =>
    rw [he] at ha
    cases ha

theorem Placed.mover (h : Placed s) (hon : s.frames (s.cpu c).cur = f :: rest) (hf : f.self = some p) (hne : f ≠ .exit4 p) :
    (s.cpu c).cur = .kstack p ∧ Alive (s.proc p).state = true := by
  have hc := h.cur_self hon hf
  refine ⟨hc, ?_⟩
  rcases h.running hc with hr | ⟨-, xs, hxs⟩
  · rw [hr]
    rfl
  · rw [hc, hxs, List.cons.injEq] at hon
    exact absurd hon.1.symm hne

/-- Whoever holds wait_lock is the only one in the sections it protects. -/
theorem Guarded.alone (hg : Guarded s) (hp : Placed s) (hon : s.frames (s.cpu c).cur = f :: rest) (hf : f.waits = true)
    (ha : Alive (s.proc p).state = true) : ¬ Need (s.frames (.kstack p)) ∨ (s.cpu c).cur = .kstack p := by
  by_cases hc : (s.cpu c).cur = .kstack p
  · exact .inr hc
  refine .inl fun hn => ?_
  have hfex : f.expects = true := by cases f <;> simp_all
  have hl : s.lock .wait = some c := hg.held c (by rw [hon]; exact .inl hfex)
  rcases hp.alive_cases ha with ⟨d, hd⟩ | ⟨x, xs, hxs, hres⟩
  · have hl' := hg.held d (by rw [hd]; exact hn)
    rw [hl, Option.some.injEq] at hl'
    exact hc (hl' ▸ hd)
  · rw [hxs] at hn
    cases x <;> simp_all [Need, Frame.Resumes]

theorem Guarded.no_section (hg : Guarded s) (hp : Placed s) (hon : s.frames (s.cpu c).cur = f :: rest) (hf : f.waits = true)
    (hk : f.kind = .plain) (hb : Bystander s c rest p g) (ha : Alive (s.proc p).state = true) (hw : g.waits = true) :
    ∃ r i b, g = .kids r i b := by
  by_contra hno
  have hnk : ∀ r i b, g ≠ .kids r i b := fun r i b hc => hno ⟨r, i, b, hc⟩
  have hst := hg.stacked (.kstack p)
  rcases hg.alone hp hon hf ha with hn | hc
  · rcases hst.position (hb.mem hon) hw hnk with ⟨r, hr⟩ | ⟨x, r, hr, hx⟩
    · refine hn ?_
      rw [hr]
      exact .inl (by cases g <;> simp_all)
    · refine hn ?_
      rw [hr]
      exact .inr ⟨hx, g, r, rfl, hw⟩
  · rcases hb with ⟨hc', -⟩ | ⟨-, hin⟩
    · exact hc' hc
    · rw [← hc, hon] at hst
      have := hst.below hin hw hnk
      rw [hk] at this
      cases this

/-- wait's scans elsewhere start over. -/
theorem Guarded.no_kids {r : Fin NPROC} {i : Nat} {b : Bool} (hg : Guarded s) (hp : Placed s)
    (hon : s.frames (s.cpu c).cur = f :: rest) (hf : f.waits = true)
    (hb : Bystander s c rest p (.kids r i b)) (ha : Alive (s.proc p).state = true) : i = 0 := by
  have hst := hg.stacked (.kstack p)
  rcases hg.alone hp hon hf ha with hn | hc
  · rcases hst.kids (hb.mem hon) with ⟨xs, hxs⟩ | h0
    · refine absurd ?_ hn
      rw [hxs]
      exact .inl rfl
    · exact h0
  · rcases hb with ⟨hc', -⟩ | ⟨-, hin⟩
    · exact absurd hc hc'
    · rw [← hc, hon] at hst
      rcases hst.2.kids hin with ⟨xs, hxs⟩ | h0
      · have ho := hst.1 (by rw [hxs]; exact .inl rfl)
        rw [hxs] at ho
        exact ho.2
      · exact h0

theorem Placed.owns_alone {np : Fin NPROC} (hp : Placed s) (hon : s.frames (s.cpu c).cur = f :: rest) (hf : f.owns = some np)
    (hb : Bystander s c rest p g) : g.owns ≠ some np := by
  intro hg
  rcases hb with ⟨hc, hin⟩ | ⟨hc, hin⟩
  · refine hc (hp.apart _ _ np ?_ (List.mem_filterMap.mpr ⟨g, hin, hg⟩))
    rw [hon]
    exact List.mem_filterMap.mpr ⟨f, by simp, hf⟩
  · have hnd := hp.once (s.cpu c).cur
    rw [hon] at hnd
    unfold owned at hnd
    rw [List.filterMap_cons_some hf, List.nodup_cons] at hnd
    exact hnd.1 (List.mem_filterMap.mpr ⟨g, hin, hg⟩)

end Bystander

/-! ## What a point knows stays true -/

namespace Frame

/-- The fork this is a point of, before the parent is set. -/
@[simp] def forks : Frame → Option (Fin NPROC × Fin NPROC)
  | fork1 p np | fork2 p np | fork3 p np => some (p, np)
  | _ => none

@[simp] def linked : Frame → Option (Fin NPROC)
  | fork4 _ np | fork5 _ np => some np
  | _ => none

/-- The process some of whose children are known not to be. -/
@[simp] def childless : Frame → Option (Fin NPROC)
  | reparent p _ _ | exit2 p _ | exit3 p _ | waitFail p .noKids => some p
  | kids p i _ => if i = 0 then none else some p
  | _ => none

end Frame

theorem Frame.Knows.step {s s' : St} {g : Frame} (h : g.Knows s) (hinit : s'.initproc = s.initproc)
    (hforks : ∀ p np, g.forks = some (p, np) → (s.proc np).parent = none →
      (s'.proc np).creator = (s.proc np).creator ∧ (s'.proc p).uid = (s.proc p).uid ∧ (s'.proc np).parent = none)
    (hlinked : ∀ np, g.linked = some np → (s.proc np).parent ≠ none → (s'.proc np).parent ≠ none)
    (hkid : ∀ p i, g = .kid p i → (s.proc i).parent = some p → (s'.proc i).parent = some p)
    (hchild : ∀ r, g.childless = some r → ∀ q, (s'.proc q).parent = some r → (s.proc q).parent = some r)
    (hkilled : ∀ p, g = .waitFail p .killed → (s.proc p).killed = true → (s'.proc p).killed = true) : g.Knows s' := by
  cases g with
  | fork1 p np | fork2 p np | fork3 p np =>
    obtain ⟨h1, h2⟩ := h
    obtain ⟨h3, h4, h5⟩ := hforks p np rfl h2
    exact ⟨by rw [h3, h4, h1], h5⟩
  | fork4 p np | fork5 p np => exact hlinked np rfl h
  | reparent p st i => exact ⟨by rw [hinit]; exact h.1, fun q hq hc => h.2 q hq (hchild p rfl q hc)⟩
  | exit2 p st | exit3 p st => exact ⟨by rw [hinit]; exact h.1, fun q hc => h.2 q (hchild p rfl q hc)⟩
  | kids p i b =>
    intro hb q hq hc
    have hi : i ≠ 0 := fun h0 => by
      rw [h0] at hq
      cases hq
    exact h hb q hq (hchild p (by simp [hi]) q hc)
  | kid p i => exact hkid p i rfl h
  | waitFail p why =>
    cases why with
    | noKids => exact fun q hc => h q (hchild p rfl q hc)
    | killed => exact hkilled p rfl h
    | copyout => trivial
  | _ => trivial

/-! ## Each kind of step -/

/-- The process table after the step, contexts apart. -/
def Act.table (a : Act) (s : St) : Fin NPROC → Proc :=
  match a.write with
  | none => s.proc
  | some (i, v) => Function.update s.proc i v

namespace Family

variable {s s' s1 : St} {lb : Label} {f : Frame} {rest : List Frame} {a : Act}

theorem knows_step (h : Family s) (t : Stepped s s' s1 lb f rest a)
    (halive : ∀ p, Alive (s'.proc p).state = true → Alive (s.proc p).state = true ∨ s'.frames (.kstack p) = [.forkret p])
    (hby : ∀ p g, Alive (s.proc p).state = true → Bystander s lb.cpu rest p g → g.Knows s → g.Knows s')
    (hnext : ∀ p, (s.cpu lb.cpu).cur = .kstack p → Alive (s.proc p).state = true → f.Knows s → ∀ g ∈ a.next, g.Knows s') :
    ∀ p, Alive (s'.proc p).state = true → ∀ g ∈ s'.frames (.kstack p), g.Knows s' := by
  intro p ha g hg
  rcases halive p ha with ha | hfr
  · rcases t.mem_stack hg with ⟨hk, hg⟩ | ⟨hk, hg | hg⟩ | ⟨r, -, -, rfl⟩
    · exact hby p g ha (.inl ⟨Ne.symm hk, hg⟩) (h.knows p ha g hg)
    · exact hnext p hk.symm ha (h.knows p ha f (by rw [hk, t.onTop]; simp)) g hg
    · exact hby p g ha (.inr ⟨hk.symm, hg⟩) (h.knows p ha g (by rw [hk, t.onTop]; exact List.mem_cons_of_mem _ hg))
    · trivial
  · rw [hfr, List.mem_singleton] at hg
    subst hg
    trivial

/-- Who is gone stays gone. -/
theorem gone_step (t : Stepped s s' s1 lb f rest a) (hexited : ∀ u, goneUid s.log u = true → goneUid s'.log u = true)
    (hstay : ∀ p, Alive (s.proc p).state = true → Alive (s'.proc p).state = true ∧ (s'.proc p).uid = (s.proc p).uid ∧
      ((s.cpu lb.cpu).cur = .kstack p → f.exiting = true → ∃ g ∈ a.next, g.exiting = true) ∨
      goneUid s'.log (s.proc p).uid = true) {u : Nat} (hu : s.Gone u) : s'.Gone u := by
  rcases hu with hu | ⟨p, ha, rfl, g, hg, he⟩
  · exact .inl (hexited u hu)
  rcases hstay p ha with ⟨ha', hu', hnext⟩ | hgone
  · refine .inr ⟨p, ha', hu', ?_⟩
    by_cases hc : (s.cpu lb.cpu).cur = .kstack p
    · have hst := t.stack
      rw [hc] at hst
      rw [hst]
      rw [← hc, t.onTop] at hg
      rcases List.mem_cons.mp hg with rfl | hg
      · obtain ⟨x, hx, hxe⟩ := hnext hc he
        exact ⟨x, List.mem_append_left _ hx, hxe⟩
      · exact ⟨g, List.mem_append_right _ hg, he⟩
    · have hs : a.start ≠ some p := fun hs => by
        rw [t.empty p hs] at ha
        cases ha
      rw [t.frames _ (Ne.symm hc) fun q hq hk => hs (by rw [hq, Stack.kstack.inj hk])]
      exact ⟨g, hg, he⟩
  · exact .inl hgone

/-- A step that concerns nobody's place in the tree. -/
theorem calm (h : Family s) (t : Stepped s s' s1 lb f rest a)
    (hq : ∀ q, (s'.proc q).uid = (s.proc q).uid ∧ (s'.proc q).creator = (s.proc q).creator ∧
      (s'.proc q).parent = (s.proc q).parent ∧ (s'.proc q).parentUid = (s.proc q).parentUid ∧
      ((s.proc q).killed = true → (s'.proc q).killed = true) ∧
      ((s'.proc q).state = (s.proc q).state ∨ Alive (s'.proc q).state = true ∧ Alive (s.proc q).state = true))
    (hlog : s'.log.exited = s.log.exited) (hknows : f.Knows s → ∀ g ∈ a.next, g.Knows s)
    (hexit : f.exiting = true → ∃ g ∈ a.next, g.exiting = true) : Family s' := by
  have halive : ∀ q, Alive (s'.proc q).state = Alive (s.proc q).state := fun q => by
    rcases (hq q).2.2.2.2.2 with he | ⟨h1, h2⟩
    · rw [he]
    · rw [h1, h2]
  have hkeep : ∀ g, Frame.Knows s g → g.Knows s' := fun g hg =>
    hg.step t.initproc (fun p np _ hn => ⟨(hq np).2.1, (hq p).1, by rw [(hq np).2.2.1, hn]⟩)
      (fun np _ hn => by rw [(hq np).2.2.1]; exact hn) (fun p i _ hi => by rw [(hq i).2.2.1, hi])
      (fun r _ q hc => by rw [← (hq q).2.2.1]; exact hc) fun p _ hk => (hq p).2.2.2.2.1 hk
  have hgone : ∀ u, s.Gone u → s'.Gone u := fun u hu =>
    gone_step t (fun v hv => by unfold goneUid at *; rw [hlog]; exact hv)
      (fun p ha => .inl ⟨(halive p).trans ha, (hq p).1, fun _ => hexit⟩) hu
  refine ⟨?_, fun q hu => ?_, fun q r hr => ?_, fun q hne hu hu' => ?_, ?_⟩
  · exact h.knows_step t (fun p ha => .inl ((halive p).symm.trans ha)) (fun p g _ _ hg => hkeep g hg)
      fun p _ _ hf g hg => hkeep g (hknows hf g hg)
  · rw [(hq q).2.2.1]
    refine h.unused q ?_
    rcases (hq q).2.2.2.2.2 with he | ⟨h1, -⟩
    · rw [← he, hu]
    · rw [hu] at h1
      cases h1
  · rw [(hq q).2.2.1] at hr
    obtain ⟨h1, h2, h3⟩ := h.parent q r hr
    rw [halive, (hq q).2.2.2.1, (hq r).1, (hq q).2.1, t.initproc]
    exact ⟨h1, h2, h3.imp id fun ⟨h4, h5⟩ => ⟨h4, hgone _ h5⟩⟩
  · rw [(hq q).2.2.1]
    rw [t.initproc] at hne
    rcases (hq q).2.2.2.2.2 with he | ⟨-, h1⟩
    · exact h.linked q hne (he ▸ hu) (he ▸ hu')
    · exact h.linked q hne (fun hc => by rw [hc] at h1; cases h1) (fun hc => by rw [hc] at h1; cases h1)
  · rw [t.initproc, halive, (hq _).1]
    exact h.init

/-- What a bystander knows of one slot, which is not alive, need not hold after a write there. -/
theorem knows_slot {i p : Fin NPROC} {g : Frame} (hp : Placed s) (t : Stepped s s' s1 lb f rest a)
    (hsame : ∀ q, q ≠ i → s'.proc q = s.proc q) (hna : Alive (s.proc i).state = false) (ha : Alive (s.proc p).state = true)
    (hb : Bystander s lb.cpu rest p g) (hg : g.Knows s) (hown : g.owns ≠ some i)
    (hkid : ∀ r, g = .kid r i → (s.proc i).parent = some r → (s'.proc i).parent = some r)
    (hchild : ∀ r, g.childless = some r → (s'.proc i).parent = some r → (s.proc i).parent = some r) : g.Knows s' := by
  have hpi : p ≠ i := fun hc => by
    rw [hc, hna] at ha
    cases ha
  have hself : ∀ r, g.self = some r → r ≠ i := fun r hr => by
    rw [(hp.mine p g (hb.mem t.onTop)).2 r hr]
    exact hpi
  refine hg.step t.initproc ?_ ?_ ?_ ?_ ?_
  · intro r np hf hn
    have hnp : np ≠ i := fun hc => hown (by cases g <;> simp_all)
    have hr : r ≠ i := hself r (by cases g <;> simp_all)
    rw [hsame np hnp, hsame r hr]
    exact ⟨rfl, rfl, hn⟩
  · intro np hf hn
    have hnp : np ≠ i := fun hc => hown (by cases g <;> simp_all)
    rw [hsame np hnp]
    exact hn
  · intro r j hf hj
    by_cases hji : j = i
    · subst hji
      exact hkid r hf hj
    · rw [hsame j hji, hj]
  · intro r hf q hq
    by_cases hqi : q = i
    · subst hqi
      exact hchild r hf hq
    · rw [hsame q hqi] at hq
      exact hq
  · intro r hf hk
    rw [hsame r (hself r (by rw [hf]; rfl))]
    exact hk

/-- A slot that is not alive is freed. -/
theorem free {i : Fin NPROC} (h : Family s) (hp : Placed s) (t : Stepped s s' s1 lb f rest a)
    (hsame : ∀ q, q ≠ i → s'.proc q = s.proc q) (hi : (s'.proc i).state = .UNUSED ∧ (s'.proc i).parent = none)
    (hna : Alive (s.proc i).state = false)
    (hown : ∀ p g, Alive (s.proc p).state = true → Bystander s lb.cpu rest p g → g.owns ≠ some i)
    (hkid : ∀ p g, Alive (s.proc p).state = true → Bystander s lb.cpu rest p g → ∀ r, g = .kid r i → (s.proc i).parent ≠ some r)
    (hnext : ∀ g ∈ a.next, g.Knows s') (hexit : f.exiting = false) (hlog : s'.log.exited = s.log.exited) : Family s' := by
  have halive : ∀ q, Alive (s'.proc q).state = true → q ≠ i := fun q ha hc => by
    rw [hc, hi.1] at ha
    cases ha
  have hne : ∀ q, Alive (s.proc q).state = true → q ≠ i := fun q ha hc => by
    rw [hc, hna] at ha
    cases ha
  have hgone : ∀ u, s.Gone u → s'.Gone u := fun u hu =>
    gone_step t (fun v hv => by unfold goneUid at *; rw [hlog]; exact hv) (fun p ha => by
      rw [hsame p (hne p ha)]
      exact .inl ⟨ha, rfl, fun _ hf => by rw [hexit] at hf; cases hf⟩) hu
  refine ⟨?_, fun q hu => ?_, fun q r hr => ?_, fun q hq hu hu' => ?_, ?_⟩
  · refine h.knows_step t (fun p ha => .inl ?_) (fun p g ha hb hg => ?_) fun p _ _ _ => hnext
    · rw [← hsame p (halive p ha)]
      exact ha
    · refine knows_slot hp t hsame hna ha hb hg (hown p g ha hb) (fun r hr hc => absurd hc (hkid p g ha hb r hr)) ?_
      intro r _ hc
      rw [hi.2] at hc
      cases hc
  · by_cases hqi : q = i
    · rw [hqi, hi.2]
    · rw [hsame q hqi] at hu ⊢
      exact h.unused q hu
  · have hqi : q ≠ i := fun hc => by
      rw [hc, hi.2] at hr
      cases hr
    rw [hsame q hqi] at hr ⊢
    obtain ⟨h1, h2, h3⟩ := h.parent q r hr
    rw [hsame r (hne r h1), t.initproc]
    exact ⟨h1, h2, h3.imp id fun ⟨h4, h5⟩ => ⟨h4, hgone _ h5⟩⟩
  · have hqi : q ≠ i := fun hc => hu (hc ▸ hi.1)
    rw [hsame q hqi] at hu hu' ⊢
    exact h.linked q (t.initproc ▸ hq) hu hu'
  · rw [t.initproc, hsame _ (hne _ h.init.1)]
    exact h.init

/-- allocproc takes a slot. -/
theorem alloc {p i : Fin NPROC} (h : Family s) (hp : Placed s) (t : Stepped s s' s1 lb f rest a)
    (hsame : ∀ q, q ≠ i → s'.proc q = s.proc q) (hun : (s.proc i).state = .UNUSED)
    (hi : (s'.proc i).state = .USED ∧ (s'.proc i).parent = (s.proc i).parent ∧ (s'.proc i).creator = (s.proc p).uid)
    (hf : f = .alloc1 p i) (hnext : a.next = [.fork1 p i]) (hlog : s'.log.exited = s.log.exited) : Family s' := by
  have hna : Alive (s.proc i).state = false := by rw [hun]; rfl
  have hnone := h.unused i hun
  have hne : ∀ q, Alive (s.proc q).state = true → q ≠ i := fun q ha hc => by
    rw [hc, hna] at ha
    cases ha
  have hgone : ∀ u, s.Gone u → s'.Gone u := fun u hu =>
    gone_step t (fun v hv => by unfold goneUid at *; rw [hlog]; exact hv) (fun q ha => by
      rw [hsame q (hne q ha)]
      exact .inl ⟨ha, rfl, fun _ he => by rw [hf] at he; cases he⟩) hu
  refine ⟨?_, fun q hu => ?_, fun q r hr => ?_, fun q hq hu hu' => ?_, ?_⟩
  · refine h.knows_step t (fun q ha => .inl ?_) (fun q g ha hb hg => ?_) fun q hc ha _ g hg => ?_
    · by_cases hqi : q = i
      · rw [hqi, hi.1] at ha
        cases ha
      · rw [← hsame q hqi]
        exact ha
    · refine knows_slot hp t hsame hna ha hb hg (fun ho => ?_) (fun r hr hc => ?_) fun r _ hc => ?_
      · have := (hp.made _ i (List.mem_filterMap.mpr ⟨g, hb.mem t.onTop, ho⟩)).1
        rw [hun] at this
        cases this
      · rw [hi.2.1]
        exact hc
      · rw [hi.2.1] at hc
        exact hc
    · rw [hnext, List.mem_singleton] at hg
      subst hg
      have hpi : p ≠ i := hne p (hp.mover t.onTop (by rw [hf]; rfl) (by rw [hf]; simp)).2
      exact ⟨by rw [hi.2.2, hsame p hpi], by rw [hi.2.1, hnone]⟩
  · have hqi : q ≠ i := fun hc => by
      rw [hc, hi.1] at hu
      cases hu
    rw [hsame q hqi] at hu ⊢
    exact h.unused q hu
  · have hqi : q ≠ i := fun hc => by
      rw [hc, hi.2.1, hnone] at hr
      cases hr
    rw [hsame q hqi] at hr ⊢
    obtain ⟨h1, h2, h3⟩ := h.parent q r hr
    rw [hsame r (hne r h1), t.initproc]
    exact ⟨h1, h2, h3.imp id fun ⟨h4, h5⟩ => ⟨h4, hgone _ h5⟩⟩
  · have hqi : q ≠ i := fun hc => hu' (hc ▸ hi.1)
    rw [hsame q hqi] at hu hu' ⊢
    exact h.linked q (t.initproc ▸ hq) hu hu'
  · rw [t.initproc, hsame _ (hne _ h.init.1)]
    exact h.init

/-- In a section of wait_lock nobody else knows of a process without children. -/
theorem no_childless {p : Fin NPROC} {g : Frame} (hp : Placed s) (hg : Guarded s) (t : Stepped s s' s1 lb f rest a)
    (hf : f.waits = true) (hk : f.kind = .plain) (ha : Alive (s.proc p).state = true) (hb : Bystander s lb.cpu rest p g) :
    g.childless = none := by
  cases hc : g.childless with
  | none => rfl
  | some r =>
    have hw : g.waits = true := by cases g <;> simp_all
    obtain ⟨x, i, b, rfl⟩ := hg.no_section hp t.onTop hf hk hb ha hw
    rw [hg.no_kids hp t.onTop hf hb ha] at hc
    cases hc

/-- fork sets the parent of the process it has made. -/
theorem link {p np : Fin NPROC} (h : Family s) (hp : Placed s) (hg : Guarded s) (t : Stepped s s' s1 lb f rest a)
    (hsame : ∀ q, q ≠ np → s'.proc q = s.proc q)
    (hnp : s'.proc np = { s.proc np with parent := some p, parentUid := (s.proc p).uid }) (hf : f = .fork3 p np)
    (hnext : a.next = [.fork4 p np]) (hlog : s'.log.exited = s.log.exited) : Family s' := by
  obtain ⟨hcur, hpa⟩ := hp.mover (p := p) t.onTop (by rw [hf]; rfl) (by rw [hf]; simp)
  have hon := t.onTop
  have hknow : Frame.Knows s (.fork3 p np) := h.knows p hpa _ (by rw [← hcur, hon, hf]; simp)
  have hused : (s.proc np).state = .USED :=
    (hp.made _ np (List.mem_filterMap.mpr ⟨f, by rw [hon]; simp, by rw [hf]; rfl⟩)).1
  have hna : Alive (s.proc np).state = false := by rw [hused]; rfl
  have hne : ∀ q, Alive (s.proc q).state = true → q ≠ np := fun q ha hc => by
    rw [hc, hna] at ha
    cases ha
  have hgone : ∀ u, s.Gone u → s'.Gone u := fun u hu =>
    gone_step t (fun v hv => by unfold goneUid at *; rw [hlog]; exact hv) (fun q ha => by
      rw [hsame q (hne q ha)]
      exact .inl ⟨ha, rfl, fun _ he => by rw [hf] at he; cases he⟩) hu
  refine ⟨?_, fun q hu => ?_, fun q r hr => ?_, fun q hq hu hu' => ?_, ?_⟩
  · refine h.knows_step t (fun q ha => .inl ?_) (fun q g ha hb hgk => ?_) fun q hc ha _ g hin => ?_
    · by_cases hq : q = np
      · rw [hq, hnp, hused] at ha
        cases ha
      · rw [← hsame q hq]
        exact ha
    · refine knows_slot hp t hsame hna ha hb hgk (hp.owns_alone hon (by rw [hf]; rfl) hb) (fun r _ hc => ?_) fun r hr _ => ?_
      · rw [hknow.2] at hc
        cases hc
      · rw [no_childless hp hg t (by rw [hf]; rfl) (by rw [hf]; rfl) ha hb] at hr
        cases hr
    · rw [hnext, List.mem_singleton] at hin
      subst hin
      show (s'.proc np).parent ≠ none
      rw [hnp]
      simp
  · have hq : q ≠ np := fun hc => by
      rw [hc, hnp, hused] at hu
      cases hu
    rw [hsame q hq] at hu ⊢
    exact h.unused q hu
  · by_cases hq : q = np
    · subst hq
      rw [hnp] at hr ⊢
      obtain rfl : p = r := Option.some.inj hr
      rw [hsame p (hne p hpa)]
      exact ⟨hpa, rfl, .inl hknow.1.symm⟩
    · rw [hsame q hq] at hr ⊢
      obtain ⟨h1, h2, h3⟩ := h.parent q r hr
      rw [hsame r (hne r h1), t.initproc]
      exact ⟨h1, h2, h3.imp id fun ⟨h4, h5⟩ => ⟨h4, hgone _ h5⟩⟩
  · have hq' : q ≠ np := fun hc => hu' (by rw [hc, hnp, hused])
    rw [hsame q hq'] at hu hu' ⊢
    exact h.linked q (t.initproc ▸ hq) hu hu'
  · rw [t.initproc, hsame _ (hne _ h.init.1)]
    exact h.init

/-- The process fork has made may run. -/
theorem ready {p np : Fin NPROC} (h : Family s) (hp : Placed s) (t : Stepped s s' s1 lb f rest a)
    (hsame : ∀ q, q ≠ np → s'.proc q = s.proc q) (hnp : s'.proc np = { s.proc np with state := .RUNNABLE })
    (hf : f = .fork5 p np) (hnext : a.next = []) (hlog : s'.log.exited = s.log.exited) : Family s' := by
  obtain ⟨hcur, hpa⟩ := hp.mover (p := p) t.onTop (by rw [hf]; rfl) (by rw [hf]; simp)
  have hon := t.onTop
  have hknow : Frame.Knows s (.fork5 p np) := h.knows p hpa _ (by rw [← hcur, hon, hf]; simp)
  have hin : np ∈ owned (s.frames (s.cpu lb.cpu).cur) := List.mem_filterMap.mpr ⟨f, by rw [hon]; simp, by rw [hf]; rfl⟩
  obtain ⟨hused, -, hfr⟩ := hp.made _ np hin
  have hq : ∀ q, (s'.proc q).uid = (s.proc q).uid ∧ (s'.proc q).creator = (s.proc q).creator ∧
      (s'.proc q).parent = (s.proc q).parent ∧ (s'.proc q).parentUid = (s.proc q).parentUid ∧
      (s'.proc q).killed = (s.proc q).killed := by
    intro q
    by_cases hq : q = np
    · rw [hq, hnp]
      exact ⟨rfl, rfl, rfl, rfl, rfl⟩
    · rw [hsame q hq]
      exact ⟨rfl, rfl, rfl, rfl, rfl⟩
  have halive : ∀ q, Alive (s.proc q).state = true → Alive (s'.proc q).state = true := by
    intro q ha
    by_cases hq : q = np
    · rw [hq, hnp]
      rfl
    · rw [hsame q hq]
      exact ha
  have hgone : ∀ u, s.Gone u → s'.Gone u := fun u hu =>
    gone_step t (fun v hv => by unfold goneUid at *; rw [hlog]; exact hv)
      (fun q ha => .inl ⟨halive q ha, (hq q).1, fun _ he => by rw [hf] at he; cases he⟩) hu
  refine ⟨?_, fun q hu => ?_, fun q r hr => ?_, fun q hqi hu hu' => ?_, ?_⟩
  · refine h.knows_step t (fun q ha => ?_) (fun q g ha hb hgk => ?_) fun q hc ha _ g hg => ?_
    · by_cases hqn : q = np
      · subst hqn
        refine .inr ((t.frames _ ?_ fun r hs hk => ?_).trans hfr)
        · exact Ne.symm (Quiet.made_idle hp hin lb.cpu)
        · have := t.empty r hs
          rw [← Stack.kstack.inj hk, hused] at this
          cases this
      · rw [hsame q hqn] at ha
        exact .inl ha
    · exact hgk.step t.initproc (fun r n _ hn => ⟨(hq n).2.1, (hq r).1, by rw [(hq n).2.2.1, hn]⟩)
        (fun n _ hn => by rw [(hq n).2.2.1]; exact hn) (fun r j _ hj => by rw [(hq j).2.2.1, hj])
        (fun r _ x hc => by rw [← (hq x).2.2.1]; exact hc) fun r _ hk => by rw [(hq r).2.2.2.2]; exact hk
    · rw [hnext] at hg
      cases hg
  · have hqn : q ≠ np := fun hc => by
      rw [hc, hnp] at hu
      cases hu
    rw [hsame q hqn] at hu ⊢
    exact h.unused q hu
  · rw [(hq q).2.2.1] at hr
    obtain ⟨h1, h2, h3⟩ := h.parent q r hr
    rw [(hq q).2.2.2.1, (hq r).1, (hq q).2.1, t.initproc]
    exact ⟨halive r h1, h2, h3.imp id fun ⟨h4, h5⟩ => ⟨h4, hgone _ h5⟩⟩
  · rw [(hq q).2.2.1]
    by_cases hqn : q = np
    · rw [hqn]
      exact hknow
    · rw [hsame q hqn] at hu hu'
      exact h.linked q (t.initproc ▸ hqi) hu hu'
  · rw [t.initproc, (hq _).1]
    exact ⟨halive _ h.init.1, h.init.2⟩

/-- A child of a process in exit goes to init. -/
theorem adopt {p i : Fin NPROC} {status : Int} {w : Wake} (h : Family s) (hp : Placed s) (hg : Guarded s)
    (t : Stepped s s' s1 lb f rest a) (hsame : ∀ q, q ≠ i → s'.proc q = s.proc q)
    (hi : s'.proc i = { s.proc i with parent := some s.initproc, parentUid := (s.proc s.initproc).uid })
    (hpar : (s.proc i).parent = some p) (hf : f = .reparent p status i)
    (hnext : a.next = [.wakeup w 0, .reparent p status (i + 1)]) (hlog : s'.log.exited = s.log.exited) : Family s' := by
  obtain ⟨hcur, hpa⟩ := hp.mover (p := p) t.onTop (by rw [hf]; rfl) (by rw [hf]; simp)
  have hon := t.onTop
  obtain ⟨hpinit, hkids⟩ : Frame.Knows s (.reparent p status i) := h.knows p hpa _ (by rw [← hcur, hon, hf]; simp)
  have hq : ∀ q, (s'.proc q).uid = (s.proc q).uid ∧ (s'.proc q).creator = (s.proc q).creator ∧
      (s'.proc q).state = (s.proc q).state ∧ (s'.proc q).killed = (s.proc q).killed := by
    intro q
    by_cases hq : q = i
    · rw [hq, hi]
      exact ⟨rfl, rfl, rfl, rfl⟩
    · rw [hsame q hq]
      exact ⟨rfl, rfl, rfl, rfl⟩
  have hgone : ∀ u, s.Gone u → s'.Gone u := fun u hu =>
    gone_step t (fun v hv => by unfold goneUid at *; rw [hlog]; exact hv)
      (fun q ha => .inl ⟨by rw [(hq q).2.2.1, ha], (hq q).1, fun _ _ => ⟨.reparent p status (i + 1), by rw [hnext]; simp, rfl⟩⟩) hu
  refine ⟨?_, fun q hu => ?_, fun q r hr => ?_, fun q hqi hu hu' => ?_, ?_⟩
  · refine h.knows_step t (fun q ha => .inl (by rw [← (hq q).2.2.1, ha])) (fun q g ha hb hgk => ?_) fun q hc ha _ g hin => ?_
    · have hw : f.waits = true ∧ f.kind = .plain := by rw [hf]; exact ⟨rfl, rfl⟩
      refine hgk.step t.initproc (fun r n _ hn => ?_) (fun n _ hn => ?_) (fun r j hj hjr => ?_) (fun r hr x _ => ?_) fun r _ hk => ?_
      · have hni : n ≠ i := fun hc => by
          rw [hc, hpar] at hn
          cases hn
        exact ⟨(hq n).2.1, (hq r).1, by rw [hsame n hni, hn]⟩
      · by_cases hni : n = i
        · rw [hni, hi]
          simp
        · rw [hsame n hni]
          exact hn
      · obtain ⟨x, k, b, hx⟩ := hg.no_section hp hon hw.1 hw.2 hb ha (by rw [hj]; rfl)
        rw [hj] at hx
        cases hx
      · rw [no_childless hp hg t hw.1 hw.2 ha hb] at hr
        cases hr
      · rw [(hq r).2.2.2]
        exact hk
    · rw [hnext] at hin
      simp only [List.mem_cons, List.not_mem_nil, or_false] at hin
      rcases hin with rfl | rfl
      · trivial
      · refine ⟨by rw [t.initproc]; exact hpinit, fun x hx => ?_⟩
        rcases Nat.lt_succ_iff_lt_or_eq.mp hx with hx | hx
        · rw [hsame x fun hc => Nat.lt_irrefl _ (hc ▸ hx)]
          exact hkids x hx
        · rw [Fin.ext hx, hi]
          exact fun hc => hpinit (Option.some.inj hc).symm
  · rw [(hq q).2.2.1] at hu
    have hqn : q ≠ i := fun hc => by
      have := h.unused q hu
      rw [hc, hpar] at this
      cases this
    rw [hsame q hqn]
    exact h.unused q hu
  · by_cases hqn : q = i
    · subst hqn
      rw [hi] at hr ⊢
      obtain rfl : s.initproc = r := Option.some.inj hr
      rw [(hq _).2.2.1, (hq _).1, t.initproc]
      refine ⟨h.init.1, rfl, .inr ⟨rfl, ?_⟩⟩
      rcases (h.parent q p hpar).2.2 with hu | ⟨hc, -⟩
      · -- its creator is in exit
        refine .inr ⟨p, by rw [(hq p).2.2.1, hpa], by rw [(hq p).1, hu], .reparent p status (q + 1), ?_, rfl⟩
        rw [← hcur, t.stack, hnext]
        simp
      · exact absurd hc hpinit
    · rw [hsame q hqn] at hr ⊢
      obtain ⟨h1, h2, h3⟩ := h.parent q r hr
      rw [(hq r).2.2.1, (hq r).1, t.initproc]
      exact ⟨h1, h2, h3.imp id fun ⟨h4, h5⟩ => ⟨h4, hgone _ h5⟩⟩
  · by_cases hqn : q = i
    · rw [hqn, hi]
      simp
    · rw [hsame q hqn] at hu hu' ⊢
      exact h.linked q (t.initproc ▸ hqi) hu hu'
  · rw [t.initproc, (hq _).2.2.1, (hq _).1]
    exact h.init

/-- A process that has given away its children exits. -/
theorem exits {p : Fin NPROC} {status : Int} (h : Family s) (hp : Placed s) (t : Stepped s s' s1 lb f rest a)
    (hsame : ∀ q, q ≠ p → s'.proc q = s.proc q) (hpp : s'.proc p = { s.proc p with xstate := status, state := .ZOMBIE })
    (hf : f = .exit3 p status) (hnext : a.next = [.exit4 p])
    (hlog : s'.log.exited = ⟨(s.proc p).uid, (s.proc p).pid, status⟩ :: s.log.exited) : Family s' := by
  obtain ⟨hcur, hpa⟩ := hp.mover (p := p) t.onTop (by rw [hf]; rfl) (by rw [hf]; simp)
  have hon := t.onTop
  obtain ⟨hpinit, hkids⟩ : Frame.Knows s (.exit3 p status) := h.knows p hpa _ (by rw [← hcur, hon, hf]; simp)
  have hq : ∀ q, (s'.proc q).uid = (s.proc q).uid ∧ (s'.proc q).creator = (s.proc q).creator ∧
      (s'.proc q).parent = (s.proc q).parent ∧ (s'.proc q).parentUid = (s.proc q).parentUid ∧
      (s'.proc q).killed = (s.proc q).killed := by
    intro q
    by_cases hq : q = p
    · rw [hq, hpp]
      exact ⟨rfl, rfl, rfl, rfl, rfl⟩
    · rw [hsame q hq]
      exact ⟨rfl, rfl, rfl, rfl, rfl⟩
  have hgone : ∀ u, s.Gone u → s'.Gone u := fun u hu => by
    refine gone_step t (fun v hv => ?_) (fun q ha => ?_) hu
    · unfold goneUid at *
      rw [hlog, List.any_cons, hv, Bool.or_true]
    · by_cases hqp : q = p
      · refine .inr ?_
        unfold goneUid
        rw [hlog, hqp]
        simp
      · rw [hsame q hqp]
        refine .inl ⟨ha, rfl, fun hc => ?_⟩
        rw [hcur, Stack.kstack.injEq] at hc
        exact absurd hc.symm hqp
  refine ⟨?_, fun q hu => ?_, fun q r hr => ?_, fun q hqi hu hu' => ?_, ?_⟩
  · refine h.knows_step t (fun q ha => .inl ?_) (fun q g ha hb hgk => ?_) fun q hc ha _ g hg => ?_
    · have hqp : q ≠ p := fun hc => by
        rw [hc, hpp] at ha
        cases ha
      rw [← hsame q hqp]
      exact ha
    · exact hgk.step t.initproc (fun r n _ hn => ⟨(hq n).2.1, (hq r).1, by rw [(hq n).2.2.1, hn]⟩)
        (fun n _ hn => by rw [(hq n).2.2.1]; exact hn) (fun r j _ hj => by rw [(hq j).2.2.1, hj])
        (fun r _ x hc => by rw [← (hq x).2.2.1]; exact hc) fun r _ hk => by rw [(hq r).2.2.2.2]; exact hk
    · rw [hnext, List.mem_singleton] at hg
      subst hg
      trivial
  · have hqp : q ≠ p := fun hc => by
      rw [hc, hpp] at hu
      cases hu
    rw [hsame q hqp] at hu ⊢
    exact h.unused q hu
  · rw [(hq q).2.2.1] at hr
    obtain ⟨h1, h2, h3⟩ := h.parent q r hr
    have hrp : r ≠ p := fun hc => hkids q (hc ▸ hr)
    rw [(hq q).2.2.2.1, (hq q).2.1, hsame r hrp, t.initproc]
    exact ⟨h1, h2, h3.imp id fun ⟨h4, h5⟩ => ⟨h4, hgone _ h5⟩⟩
  · rw [(hq q).2.2.1]
    rw [t.initproc] at hqi
    by_cases hqp : q = p
    · subst hqp
      exact h.linked q hqi (fun hc => by rw [hc] at hpa; cases hpa) (fun hc => by rw [hc] at hpa; cases hpa)
    · rw [hsame q hqp] at hu hu'
      exact h.linked q hqi hu hu'
  · rw [t.initproc, hsame _ (Ne.symm hpinit)]
    exact h.init

end Family

/-! ## Runs -/

section Run

variable {s s' s1 : St} {lb : Label} {f : Frame} {rest : List Frame} {a : Act}

/-- The same step with the contexts of the process table left out. -/
theorem Stepped.exact (t : Stepped s s' s1 lb f rest a) : ∃ u, Stepped s u s1 lb f rest a ∧ u.proc = a.table s ∧
    u.frames = s'.frames ∧ u.log = s'.log ∧ u.initproc = s'.initproc ∧ ∀ q, ∃ k, s'.proc q = { u.proc q with context := k } := by
  refine ⟨{ s' with proc := a.table s }, ⟨t.onTop, t.act, t.acts, t.op, t.lock, t.log, t.initproc, t.noff, t.other, ?_, t.empty,
    t.unused, t.fresh, t.stack, t.frames, fun p hw => ⟨(s.proc p).context, ?_⟩, fun p v hw => ⟨v.context, ?_⟩⟩, rfl, rfl, rfl, rfl,
    fun q => ?_⟩
  · cases t.goes with
    | stay h1 h2 => exact .stay h1 h2
    | clear i h1 h2 h3 h4 h5 => exact .clear i h1 h2 h3 h4 h5
    | run i g gs h1 h2 h3 h4 h5 h6 => exact .run i g gs h1 h2 h3 h4 h5 h6
    | sched p h1 h2 h3 h4 h5 h6 h7 h8 => exact .sched p h1 h2 h3 h4 h5 h6 h7 h8
  · unfold Act.table
    cases hs : a.write with
    | none => rfl
    | some pv =>
      have hne : p ≠ pv.1 := fun he => hw pv.2 (by rw [hs, he])
      simp [hne]
  · simp [Act.table, hw]
  · cases hs : a.write with
    | none =>
      obtain ⟨k, hk⟩ := t.proc q fun v hv => by
        rw [hs] at hv
        cases hv
      exact ⟨k, by simp [Act.table, hs, hk]⟩
    | some pv =>
      by_cases hq : q = pv.1
      · obtain ⟨k, hk⟩ := t.written q pv.2 (by rw [hs, hq])
        exact ⟨k, by rw [hk]; simp [Act.table, hs, hq]⟩
      · obtain ⟨k, hk⟩ := t.proc q fun v hv => by
          rw [hs, Option.some.injEq] at hv
          exact hq (by rw [hv])
        exact ⟨k, by simp [Act.table, hs, hk, hq]⟩

theorem takeNote_plain {n : Note} (s : St) (h : n.plain = true) : (s.takeNote n).exited = s.log.exited ∧
    (s.takeNote n).reaped = s.log.reaped ∧ (s.takeNote n).nextuid = s.log.nextuid := by
  cases n <;> first | exact ⟨rfl, rfl, rfl⟩ | cases h

theorem Family.congr {u : St} (h : Family u) (hf : u.frames = s'.frames) (hl : u.log = s'.log) (hi : u.initproc = s'.initproc)
    (hq : ∀ q, ∃ k, s'.proc q = { u.proc q with context := k }) : Family s' := by
  have h1 : ∀ q, (s'.proc q).state = (u.proc q).state := fun q => by
    obtain ⟨k, hk⟩ := hq q
    rw [hk]
  have h2 : ∀ q, (s'.proc q).parent = (u.proc q).parent := fun q => by
    obtain ⟨k, hk⟩ := hq q
    rw [hk]
  have h3 : ∀ q, (s'.proc q).uid = (u.proc q).uid := fun q => by
    obtain ⟨k, hk⟩ := hq q
    rw [hk]
  have h4 : ∀ q, (s'.proc q).creator = (u.proc q).creator ∧ (s'.proc q).parentUid = (u.proc q).parentUid ∧
      (s'.proc q).killed = (u.proc q).killed := fun q => by
    obtain ⟨k, hk⟩ := hq q
    rw [hk]
    exact ⟨rfl, rfl, rfl⟩
  have hgone : ∀ v, u.Gone v → s'.Gone v := by
    rintro v (hv | ⟨p, ha, hu, hfr⟩)
    · exact .inl (by rw [← hl]; exact hv)
    · exact .inr ⟨p, by rw [h1, ha], by rw [h3, hu], by rw [← hf]; exact hfr⟩
  refine ⟨fun p ha g hg => ?_, fun q hu => ?_, fun q r hr => ?_, fun q hne hu hu' => ?_, ?_⟩
  · rw [h1] at ha
    rw [← hf] at hg
    refine (h.knows p ha g hg).step hi.symm (fun r n _ hn => ⟨(h4 n).1, h3 r, by rw [h2, hn]⟩) (fun n _ hn => ?_)
      (fun r j _ hj => by rw [h2, hj]) (fun r _ q hc => by rw [← h2]; exact hc) fun r _ hk => by rw [(h4 r).2.2]; exact hk
    rw [h2]
    exact hn
  · rw [h2]
    rw [h1] at hu
    exact h.unused q hu
  · rw [h2] at hr
    obtain ⟨h5, h6, h7⟩ := h.parent q r hr
    rw [h1, h3, (h4 q).1, (h4 q).2.1, ← hi]
    exact ⟨h5, h6, h7.imp id fun ⟨h8, h9⟩ => ⟨h8, hgone _ h9⟩⟩
  · rw [h1] at hu hu'
    rw [h2]
    exact h.linked q (by rw [hi]; exact hne) hu hu'
  · rw [← hi, h1, h3]
    exact h.init

theorem Record.congr {u : St} (h : Record u) (hl : u.log = s'.log)
    (hq : ∀ q, ∃ k, s'.proc q = { u.proc q with context := k }) : Record s' := by
  refine h.shrink (fun q hu => ?_) (fun q hz => ?_) (by rw [hl]) (by rw [hl]) (Nat.le_of_eq (by rw [hl]))
  · obtain ⟨k, hk⟩ := hq q
    rw [hk] at hu ⊢
    exact ⟨hu, rfl, rfl, rfl, Iff.rfl⟩
  · obtain ⟨k, hk⟩ := hq q
    rw [hk]
    exact hz

/-- When wait returns a child, its creator is gone only if it has exited. -/
theorem Family.waiter {p i : Fin NPROC} (h : Family s) (hp : Placed s) (hg : Guarded s) (hr : Record s)
    (hon : s.frames (s.cpu lb.cpu).cur = .kid p i :: rest) :
    (s.proc i).parent = some p ∧ (s.proc p).uid = if goneUid s.log (s.proc i).creator then 0 else (s.proc i).creator := by
  obtain ⟨hcur, hpa⟩ := hp.mover (p := p) hon rfl (by simp)
  have hpar : (s.proc i).parent = some p := h.knows p hpa (.kid p i) (by rw [← hcur, hon]; simp)
  refine ⟨hpar, ?_⟩
  rcases (h.parent i p hpar).2.2 with hu | ⟨rfl, hgone⟩
  · have hno : goneUid s.log (s.proc i).creator = false := by
      unfold goneUid
      rw [List.any_eq_false]
      intro e he
      have := hr.alive p (fun hc => by rw [hc] at hpa; cases hpa) (fun hc => by rw [hc] at hpa; cases hpa) e he
      rw [hu] at this
      simpa using this
    rw [hno]
    exact hu
  · have hex : goneUid s.log (s.proc i).creator = true := by
      rcases hgone with hgone | ⟨q, hqa, -, g, hin, he⟩
      · exact hgone
      · -- nobody is in exit while wait has wait_lock
        exfalso
        have hb : Bystander s lb.cpu rest q g := by
          by_cases hc : (s.cpu lb.cpu).cur = .kstack q
          · rw [← hc, hon] at hin
            rcases List.mem_cons.mp hin with rfl | hin
            · cases he
            · exact .inr ⟨hc, hin⟩
          · exact .inl ⟨hc, hin⟩
        obtain ⟨r, j, b, rfl⟩ := hg.no_section hp hon rfl rfl hb hqa (by cases g <;> simp_all)
        cases he
    rw [hex]
    exact h.init.2

end Run

/-- All that is known of the tree in a reachable state. -/
structure Tree (s : St) : Prop where
  placed : Placed s
  guarded : Guarded s
  family : Family s
  record : Record s

theorem Tree.step {s s' : St} {lb : Label} (h : Tree s) (he : Sched.step s lb = .ok s') : Tree s' := by
  obtain ⟨hp, hg, hfam, hrec⟩ := h
  obtain ⟨f, rest, a, s1, t'⟩ := hp.stepped he
  obtain ⟨u, t, hu, hfr, hlog, hinit, hctx⟩ := t'.exact
  suffices Family u ∧ Record u from
    ⟨placed_step hp he, hg.step hp he, this.1.congr hfr hlog hinit hctx, this.2.congr hlog hctx⟩
  obtain ⟨-, hexited, hreaped, hnext, -⟩ := doOp_log t.op
  have hproc := (doOp_frame t.op).1
  -- the log by the note, the table by the write
  have hl := t.log
  have hone : ∀ {i v}, a.write = some (i, v) → (∀ q, q ≠ i → u.proc q = s.proc q) ∧ u.proc i = v := by
    intro i v hw
    rw [hu]
    unfold Act.table
    rw [hw]
    exact ⟨fun q hq => by simp [hq], by simp⟩
  cases labelAct_kin t.act with
  | alloc p i hf hun hnx hn hw =>
    obtain ⟨hsame, hi⟩ := hone hw
    rw [hn] at hl
    refine ⟨hfam.alloc (p := p) hp t hsame hun ?_ hf hnx ?_, hrec.alloc hsame ?_ hun ?_ ?_ ?_ ?_⟩
    all_goals simp [hi, hl, St.takeNote, hexited, hreaped, hnext]
  | dud p i v hf hun hnx hn hw =>
    obtain ⟨hsame, hi⟩ := hone hw
    rw [hn] at hl
    refine ⟨hfam.free hp t hsame ?_ (by rw [hun]; rfl) (fun q g _ hb ho => ?_) (fun q g _ _ r _ hc => ?_) ?_ ?_ ?_,
      hrec.free hsame ?_ (by rw [hun]; simp) ?_ ?_ ?_⟩
    · rw [hi]
      exact ⟨rfl, rfl⟩
    · have := (hp.made _ i (List.mem_filterMap.mpr ⟨g, hb.mem t.onTop, ho⟩)).1
      rw [hun] at this
      cases this
    · rw [hfam.unused i hun] at hc
      cases hc
    all_goals simp [hnx, hf, hi, freeproc, hl, St.takeNote, hexited, hreaped, hnext]
  | drop p np hf hnx hn hw =>
    obtain ⟨hsame, hi⟩ := hone hw
    rw [hn] at hl
    obtain ⟨hcur, hpa⟩ := hp.mover (p := p) t.onTop (by rw [hf]; rfl) (by rw [hf]; simp)
    have hknow : Frame.Knows s (.fork1 p np) := hfam.knows p hpa _ (by rw [← hcur, t.onTop, hf]; simp)
    have hused : (s.proc np).state = .USED :=
      (hp.made _ np (List.mem_filterMap.mpr ⟨f, by rw [t.onTop]; simp, by rw [hf]; rfl⟩)).1
    refine ⟨hfam.free hp t hsame ?_ (by rw [hused]; rfl) (fun q g _ hb => hp.owns_alone t.onTop (by rw [hf]; rfl) hb)
      (fun q g _ _ r _ hc => ?_) ?_ ?_ ?_, hrec.free hsame ?_ (by rw [hused]; simp) ?_ ?_ ?_⟩
    · rw [hi]
      exact ⟨rfl, rfl⟩
    · rw [hknow.2] at hc
      cases hc
    all_goals simp [hnx, hf, hi, freeproc, hl, St.takeNote, hexited, hreaped, hnext]
  | link p np hf hnx hn hw =>
    obtain ⟨hsame, hi⟩ := hone hw
    rw [hn] at hl
    refine ⟨hfam.link hp hg t hsame hi hf hnx ?_, hrec.keep (fun q => ?_) ?_ ?_ ?_⟩
    case refine_2 => by_cases hq : q = np <;> simp [hq, hi, hsame q]
    all_goals simp [hl, St.takeNote, hexited, hreaped, hnext]
  | ready p np hf hnx hn hw =>
    obtain ⟨hsame, hi⟩ := hone hw
    rw [hn] at hl
    have hused : (s.proc np).state = .USED :=
      (hp.made _ np (List.mem_filterMap.mpr ⟨f, by rw [t.onTop]; simp, by rw [hf]; rfl⟩)).1
    refine ⟨hfam.ready hp t hsame hi hf hnx ?_, hrec.keep (fun q => ?_) ?_ ?_ ?_⟩
    case refine_2 => by_cases hq : q = np <;> simp [hq, hi, hsame q, hused]
    all_goals simp [hl, St.takeNote, hexited, hreaped, hnext]
  | adopt p i st w hf hpar hnx hn hw =>
    obtain ⟨hsame, hi⟩ := hone hw
    rw [hn] at hl
    refine ⟨hfam.adopt hp hg t hsame hi hpar hf hnx ?_, hrec.keep (fun q => ?_) ?_ ?_ ?_⟩
    case refine_2 => by_cases hq : q = i <;> simp [hq, hi, hsame q]
    all_goals simp [hl, St.takeNote, hexited, hreaped, hnext]
  | exits p st hf hnx hn hw =>
    obtain ⟨hsame, hi⟩ := hone hw
    rw [hn] at hl
    have hpa := (hp.mover (p := p) t.onTop (by rw [hf]; rfl) (by rw [hf]; simp)).2
    have hlog : u.log.exited = ⟨(s.proc p).uid, (s.proc p).pid, st⟩ :: s.log.exited := by
      rw [hl]
      simp [St.takeNote, hexited, hproc]
    refine ⟨hfam.exits hp t hsame hi hf hnx hlog, hrec.exit hpa hsame hi hlog ?_ ?_⟩
    all_goals simp [hl, St.takeNote, hreaped, hnext]
  | reap p i pid hf hz hnx hn hw =>
    obtain ⟨hsame, hi⟩ := hone hw
    rw [hn] at hl
    have hon := t.onTop
    rw [hf] at hon
    have hwt := hfam.waiter hp hg hrec hon
    refine ⟨hfam.free hp t hsame ?_ (by rw [hz]; rfl) (fun q g _ hb ho => ?_) (fun q g ha hb r hr _ => ?_) ?_ ?_ ?_,
      hrec.reap (r := ⟨(s.proc i).uid, (s.proc i).pid, (s.proc i).xstate, (s.proc p).uid, (s.proc i).creator,
        goneUid s.log (s.proc i).creator⟩) hz hsame ?_ ?_ ?_ ?_ rfl hwt.2⟩
    · rw [hi]
      exact ⟨rfl, rfl⟩
    · have := (hp.made _ i (List.mem_filterMap.mpr ⟨g, hb.mem t.onTop, ho⟩)).1
      rw [hz] at this
      cases this
    · obtain ⟨x, j, b, hx⟩ := hg.no_section hp t.onTop (by rw [hf]; rfl) (by rw [hf]; rfl) hb ha (by rw [hr]; rfl)
      rw [hr] at hx
      cases hx
    all_goals simp [hnx, hf, hi, freeproc, hl, St.takeNote, hexited, hreaped, hnext]
  | calm hk hn hs hx =>
    obtain ⟨h1, h2, h3⟩ := takeNote_plain s1 hn
    rw [← hl] at h1 h2 h3
    have hq : ∀ q, (u.proc q).uid = (s.proc q).uid ∧ (u.proc q).creator = (s.proc q).creator ∧
        (u.proc q).parent = (s.proc q).parent ∧ (u.proc q).parentUid = (s.proc q).parentUid ∧
        (u.proc q).pid = (s.proc q).pid ∧ (u.proc q).xstate = (s.proc q).xstate ∧
        ((s.proc q).killed = true → (u.proc q).killed = true) ∧
        ((u.proc q).state = (s.proc q).state ∨ Alive (u.proc q).state = true ∧ Alive (s.proc q).state = true) := by
      intro q
      cases hw : a.write with
      | none =>
        rw [hu, show a.table s = s.proc by unfold Act.table; rw [hw]]
        exact ⟨rfl, rfl, rfl, rfl, rfl, rfl, id, .inl rfl⟩
      | some iv =>
        obtain ⟨i, v⟩ := iv
        obtain ⟨hsame, hi⟩ := hone hw
        by_cases hqi : q = i
        · subst hqi
          obtain ⟨k1, k2, k3, k4, k5, k6, k7, k8⟩ := hk q v hw
          rw [hi]
          refine ⟨k1, k2, k3, k4, k5, k6, k7, k8.imp id fun k => ⟨k.1, ?_⟩⟩
          rcases k.2 with ha | ⟨hself, hne⟩
          · exact ha
          · exact (hp.mover t.onTop hself hne).2
        · rw [hsame q hqi]
          exact ⟨rfl, rfl, rfl, rfl, rfl, rfl, id, .inl rfl⟩
    refine ⟨hfam.calm t (fun q => ?_) (h1.trans hexited) hs hx, hrec.keep (fun q => ?_) (h1.trans hexited) (h2.trans hreaped)
      (h3.trans hnext)⟩
    · obtain ⟨k1, k2, k3, k4, -, -, k7, k8⟩ := hq q
      exact ⟨k1, k2, k3, k4, k7, k8⟩
    · obtain ⟨k1, -, -, -, k5, k6, -, k8⟩ := hq q
      refine ⟨k1, k5, k6, ?_⟩
      rcases k8 with he | ⟨ha, hb⟩
      · rw [he]
        exact ⟨Iff.rfl, Iff.rfl⟩
      · constructor <;> constructor <;> intro hc <;> simp [hc] at ha hb

theorem Tree.init : Tree booted := by
  have hzero : ∀ p, (booted.proc p).state ≠ .UNUSED → p = 0 := by
    intro p hp
    by_contra hne
    simp [booted, hne] at hp
  have hparent : ∀ p, (booted.proc p).parent = none := by
    intro p
    by_cases hp : p = 0 <;> simp [booted, hp]
  have halive : ∀ p, (booted.proc p).state ≠ .ZOMBIE := by
    intro p
    by_cases hp : p = 0 <;> simp [booted, hp]
  refine ⟨placed_init rfl, Guarded.init rfl, ⟨fun p ha f hf => ?_, fun q _ => hparent q, fun q r hr => ?_, fun q hq hu _ => ?_,
    rfl, rfl⟩, fun p hp => ?_, fun p q hp hq _ => ?_, ?_, ?_, fun p hp => absurd hp (halive p), List.nodup_nil, List.nodup_nil,
    ?_, ?_, ?_⟩
  · by_cases hp : p = 0
    · simp [booted, hp] at hf
      subst hf
      trivial
    · simp [booted, hp] at ha
  · rw [hparent q] at hr
    cases hr
  · exact absurd (hzero q hu) hq
  · rw [hzero p hp]
    exact Nat.lt_succ_self 0
  · rw [hzero p hp, hzero q hq]
  all_goals simp [booted]

/-- Only wait's step with a zombie's lock returns a child: to the child's parent. -/
theorem Tree.returns {s s' : St} {lb : Label} {r : Reap} (h : Tree s) (he : Sched.step s lb = .ok s')
    (hr : s'.log.reaped = r :: s.log.reaped) : ∃ p i, s.myproc lb.cpu = some p ∧ (s.proc i).parent = some p ∧
      (s.proc i).state = .ZOMBIE ∧ r = ⟨(s.proc i).uid, (s.proc i).pid, (s.proc i).xstate, (s.proc p).uid, (s.proc i).creator,
        goneUid s.log (s.proc i).creator⟩ := by
  obtain ⟨hp, hg, hfam, hrec⟩ := h
  obtain ⟨f, rest, a, s1, t⟩ := hp.stepped he
  obtain ⟨-, -, hreaped, -⟩ := doOp_log t.op
  have hl := t.log
  have hne : s'.log.reaped ≠ s.log.reaped := fun hc => by
    rw [hr] at hc
    exact absurd (congrArg List.length hc) (by simp)
  cases labelAct_kin t.act with
  | reap p i pid hf hz hnx hn hw =>
    rw [hn] at hl
    rw [hl] at hr
    have hon := t.onTop
    rw [hf] at hon
    have hcur := (hp.mover (p := p) hon rfl (by simp)).1
    simp only [St.takeNote, hreaped, List.cons.injEq, and_true] at hr
    exact ⟨p, i, hp.cur_kstack hcur, (hfam.waiter hp hg hrec hon).1, hz, hr.symm⟩
  | calm hk hn hs hx =>
    have hpl := (takeNote_plain s1 hn).2.1
    rw [← hl] at hpl
    exact absurd (hpl.trans hreaped) hne
  | alloc p i hf hun hnx hn hw | dud p i v hf hun hnx hn hw | drop p np hf hnx hn hw | link p np hf hnx hn hw
  | ready p np hf hnx hn hw | adopt p i st w hf hpar hnx hn hw | exits p st hf hnx hn hw =>
    rw [hn] at hl
    exact absurd (by rw [hl]; exact hreaped) hne

/-- wait without a child to return: what its caller knows. -/
theorem Tree.fails {s : St} {c : Fin NCPU} {p : Fin NPROC} {why : Why} {rest : List Frame} (h : Tree s)
    (hon : s.frames (s.cpu c).cur = .waitFail p why :: rest) (hk : (s.proc p).killed = false) (hc : why ≠ .copyout)
    (q : Fin NPROC) : (s.proc q).parent ≠ some p := by
  obtain ⟨hcur, hpa⟩ := h.placed.mover (p := p) hon rfl (by simp)
  have hknow : Frame.Knows s (.waitFail p why) := h.family.knows p hpa _ (by rw [← hcur, hon]; simp)
  cases why with
  | noKids => exact hknow q
  | killed =>
    rw [show (s.proc p).killed = true from hknow] at hk
    cases hk
  | copyout => exact absurd rfl hc

/-- A wait whose copyout fails leaves the zombie as it is. -/
theorem kid_copyout {s s' : St} {c : Fin NCPU} {p i : Fin NPROC} {rest : List Frame}
    (hon : s.frames (s.cpu c).cur = .kid p i :: rest) (hz : (s.proc i).state = .ZOMBIE) (he : step s (.run c false) = .ok s') :
    s'.proc = s.proc ∧ s'.frames (s'.cpu c).cur = .waitFail p .copyout :: rest := by
  obtain ⟨f, rest', a, s1, hf, ha, hop, hsw⟩ := step_ok he
  have hff : s.frames (s.cpu c).cur = f :: rest' := hf
  obtain ⟨rfl, rfl⟩ := List.cons.inj (hff.symm.trans hon)
  have haa : a = { op := .release (.proc i), next := [.waitFail p .copyout] } := by
    have : kidAct s false p i = a := Outcome.ok.inj ha
    rw [← this]
    simp [kidAct, hz]
  subst haa
  obtain ⟨hproc, -, -, hcpu⟩ := doOp_frame hop
  cases hsw
  refine ⟨hproc, ?_⟩
  show (s1.put _ _ _).frames (s1.cpu c).cur = _
  rw [(hcpu c).1]
  simp [St.put, Label.cpu]

/-- **Exit statuses are delivered once, to the right process.** Each process exits at most once; a wait returns what some
exit left, each one at most once, and until then it is a zombie; the wait is the parent's, which is the creator, or init if
the creator has exited; a process that fork has made has a parent that is there, and the same since; a wait whose copyout
fails leaves the zombie; and a wait that fails otherwise, of a caller not killed, has no children. -/
theorem delivery {s : St} (hs : Reach step init s) :
    (s.log.exited.map Exit.uid).Nodup ∧ (s.log.reaped.map Reap.child).Nodup ∧
    (∀ r ∈ s.log.reaped, ⟨r.child, r.pid, r.status⟩ ∈ s.log.exited ∧
      r.waiter = if r.orphan then (s.proc s.initproc).uid else r.creator) ∧
    (∀ e ∈ s.log.exited, (∃ p, (s.proc p).state = .ZOMBIE ∧ (⟨(s.proc p).uid, (s.proc p).pid, (s.proc p).xstate⟩ : Exit) = e) ∨
      ∃ r ∈ s.log.reaped, (⟨r.child, r.pid, r.status⟩ : Exit) = e) ∧
    (∀ lb s' r, step s lb = .ok s' → s'.log.reaped = r :: s.log.reaped →
      ∃ p i, s.myproc lb.cpu = some p ∧ (s.proc i).parent = some p ∧ (s.proc i).state = .ZOMBIE ∧
        r = ⟨(s.proc i).uid, (s.proc i).pid, (s.proc i).xstate, (s.proc p).uid, (s.proc i).creator,
          goneUid s.log (s.proc i).creator⟩) ∧
    (∀ q, q ≠ s.initproc → (s.proc q).state ≠ .UNUSED → (s.proc q).state ≠ .USED →
      ∃ p, (s.proc q).parent = some p ∧ (s.proc p).state ≠ .UNUSED ∧ (s.proc p).uid = (s.proc q).parentUid) ∧
    (∀ c p i rest s', s.frames (s.cpu c).cur = .kid p i :: rest → (s.proc i).state = .ZOMBIE →
      step s (.run c false) = .ok s' → s'.proc = s.proc ∧ s'.frames (s'.cpu c).cur = .waitFail p .copyout :: rest) ∧
    ∀ c p why rest, s.frames (s.cpu c).cur = .waitFail p why :: rest → (s.proc p).killed = false → why ≠ .copyout →
      ∀ q, (s.proc q).parent ≠ some p := by
  have h : Tree s := hs.invariant (fun _ hi => hi ▸ Tree.init) fun _ _ _ hi he => hi.step he
  refine ⟨h.record.exits, h.record.reaps, fun r hr => ⟨(h.record.reaped r hr).1, ?_⟩, h.record.kept,
    fun lb s' r he hr => h.returns he hr, fun q hq hu hu' => ?_, fun c p i rest s' => kid_copyout,
    fun c p why rest => h.fails⟩
  · rw [h.family.init.2]
    exact h.record.waiter r hr
  · obtain ⟨p, hp⟩ := Option.ne_none_iff_exists'.mp (h.family.linked q hq hu hu')
    obtain ⟨ha, hpu, -⟩ := h.family.parent q p hp
    refine ⟨p, hp, fun hc => ?_, hpu.symm⟩
    rw [hc] at ha
    cases ha

/-- init forks on processor 0, its child runs on processor 1 and exits with status 7, and init waits. -/
def forkExitWait : List Label :=
  [.run 0 true, .run 0 true, .run 0 true, .call 0 .fork] ++ List.replicate 9 (.run 0 true) ++
  List.replicate 5 (.run 1 true) ++ [.call 1 (.exit 7)] ++ List.replicate (NPROC + 2 * NPROC + 6) (.run 1 true) ++
  [.call 0 .wait] ++ List.replicate 5 (.run 0 true)

theorem delivery_seven : ∃ s, runs step booted forkExitWait = .ok s ∧
    s.log.reaped.map (fun r => (r.pid, r.status)) = [(2, 7)] ∧ s.log.exited = [⟨1, 2, 7⟩] ∧
    ∀ r ∈ s.log.reaped, r.waiter = r.creator := by
  have he : (runs step booted forkExitWait).goesOn (fun s => s.log.reaped.map (fun r => (r.pid, r.status)) = [(2, 7)] ∧
      s.log.exited = [⟨1, 2, 7⟩] ∧ ∀ r ∈ s.log.reaped, r.orphan = false) = true := by
    decide +kernel
  obtain ⟨s, hr, hs⟩ := Outcome.exists_of_goesOn he
  obtain ⟨h1, h2, h3⟩ := of_decide_eq_true hs
  have h := delivery (Reach.of_runs (.init rfl) hr)
  refine ⟨s, hr, h1, h2, fun r hr' => ?_⟩
  have := (h.2.2.1 r hr').2
  rw [h3 r hr'] at this
  exact this

end Xv6.Sched
