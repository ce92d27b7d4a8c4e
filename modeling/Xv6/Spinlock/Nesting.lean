/-
Interrupts follow the nesting of locks. The count `noff` is the running thread's own, for
a thread gives up the processor with one push_off outstanding and gets it back with one
(`Inv`); interrupts are off while it is positive. What a thread found at its outermost
push_off is in `intena` while it runs and in sched's variable while it does not
(`Keeps`), so its last pop_off restores it, whatever the others did.
-/
import Xv6.Spinlock.Model

namespace Xv6.Spinlock

open Lib

set_option linter.unusedSectionVars false

variable {T L : Type} [DecidableEq T] [DecidableEq L] {plock : T → L}

namespace State

variable {s : State T L} {v : Thread L}

@[simp] theorem me_setMe : (s.setMe v).me = v := by simp [me, setMe]

theorem thread_setMe_of_ne {u : Option T} (h : u ≠ s.cur) : (s.setMe v).thread u = s.thread u :=
  Function.update_of_ne h _ _

/-- The lock of a push_off, if it is for one, taken or not. -/
def setHold (s : State T L) : Hold L → Bool → State T L
  | .bare, _ => s
  | .lock l, v => { s with locked := Function.update s.locked l v }

/-- What pop_off leaves. -/
def popped (s : State T L) (h : Hold L) : State T L :=
  { s with
    noff := s.noff - 1
    intr := s.noff - 1 = 0 && s.intena }.setMe { s.me with out := s.me.out.erase h }

@[simp] theorem setHold_noff (h : Hold L) (b : Bool) : (s.setHold h b).noff = s.noff := by cases h <;> rfl

@[simp] theorem setHold_intr (h : Hold L) (b : Bool) : (s.setHold h b).intr = s.intr := by cases h <;> rfl

@[simp] theorem setHold_intena (h : Hold L) (b : Bool) : (s.setHold h b).intena = s.intena := by cases h <;> rfl

@[simp] theorem setHold_cur (h : Hold L) (b : Bool) : (s.setHold h b).cur = s.cur := by cases h <;> rfl

@[simp] theorem setHold_thread (h : Hold L) (b : Bool) : (s.setHold h b).thread = s.thread := by cases h <;> rfl

@[simp] theorem setHold_me (h : Hold L) (b : Bool) : (s.setHold h b).me = s.me := by simp [me]

theorem setHold_locked (h : Hold L) (b : Bool) (l : L) :
    (s.setHold h b).locked l = if h = .lock l then b else s.locked l := by
  cases h with
  | bare => simp [setHold]
  | lock k =>
    by_cases hk : k = l
    · simp [setHold, hk]
    · simp [setHold, hk, Function.update_of_ne (Ne.symm hk)]

theorem take_ok {s' : State T L} {h : Hold L} (hs : s.take h = .ok s') :
    s' = s.setHold h true ∧ ∀ l, h = .lock l → s.locked l = false := by
  cases h with
  | bare =>
    cases hs
    exact ⟨rfl, nofun⟩
  | lock l =>
    simp only [take] at hs
    split at hs
    · cases hs
    · next hl =>
      cases hs
      refine ⟨rfl, ?_⟩
      rintro _ ⟨⟩
      simpa using hl

theorem drop_ok {s' : State T L} {h : Hold L} (hs : s.drop h = .ok s') :
    s' = s.setHold h false ∧ ∀ l, h = .lock l → s.locked l = true := by
  cases h with
  | bare =>
    cases hs
    exact ⟨rfl, nofun⟩
  | lock l =>
    simp only [drop] at hs
    split at hs
    · next hl =>
      cases hs
      refine ⟨rfl, ?_⟩
      rintro _ ⟨⟩
      exact hl
    · cases hs

theorem popOff_ok {s' : State T L} {h : Hold L} (hs : s.popOff h = .ok s') : s' = s.popped h := by
  simp only [popOff] at hs
  split at hs
  · cases hs
  · split at hs
    · cases hs
    · cases hs
      rfl

theorem out_setMe (h : v.out = s.me.out) (u : Option T) : ((s.setMe v).thread u).out = (s.thread u).out := by
  by_cases hu : u = s.cur
  · subst hu
    simp [setMe, h, me]
  · rw [thread_setMe_of_ne hu]

end State

/-! ## What a step does -/

inductive Moves (plock : T → L) (s : State T L) : State T L → Prop
  | intrGet (h : Hold L) (htop : s.me.top = none) : Moves plock s (s.setMe { s.me with top := some (h, s.intr) })
  | push (h : Hold L) (old : Bool) (htop : s.me.top = some (h, old)) (hfree : ∀ l, h = .lock l → s.locked l = false) :
    Moves plock s ((s.pushOff h old).setHold h true)
  | pop (h : Hold L) (hmem : h ∈ s.me.out) (htop : s.me.top = none) (hheld : ∀ l, h = .lock l → s.locked l = true) :
    Moves plock s ((s.setHold h false).popped h)
  | setIntr (on : Bool) (hout : s.me.out = []) (htop : s.me.top = none) : Moves plock s { s with intr := on }
  | trap (hintr : s.intr = true) :
    Moves plock s ({ s with intr := false }.setMe { s.me with top := none, below := s.me.top :: s.me.below })
  | sret (f : Option (Hold L × Bool)) (below : List (Option (Hold L × Bool))) (hbelow : s.me.below = f :: below)
    (hout : s.me.out = []) (htop : s.me.top = none) :
    Moves plock s ({ s with intr := true }.setMe { s.me with top := f, below := below })
  | sched (t : T) (hcur : s.cur = some t) (hout : s.me.out = [.lock (plock t)]) (htop : s.me.top = none) :
    Moves plock s { s.setMe { s.me with saved := some s.intena } with cur := none }
  | run (t : T) (hcur : s.cur = none) (hout : s.me.out = [.lock (plock t)]) (htop : s.me.top = none) :
    Moves plock s (s.run t)

theorem moves_of_step {s s' : State T L} {a : Label T L} (h : step plock s a = .ok s') : Moves plock s s' := by
  cases a with
  | intrGet hd =>
    simp only [step] at h
    split at h
    · next htop =>
      cases h
      exact .intrGet hd htop
    · cases h
  | pushOff =>
    simp only [step] at h
    split at h
    · cases h
    · next hd old htop =>
      obtain ⟨rfl, hfree⟩ := State.take_ok h
      exact .push hd old htop hfree
  | popOff hd =>
    simp only [step] at h
    split at h
    · next hc =>
      split at h
      · next s1 hdrop =>
        obtain ⟨rfl, hheld⟩ := State.drop_ok hdrop
        rw [State.popOff_ok h]
        exact .pop hd hc.1 hc.2 hheld
      · cases h
      · cases h
    · cases h
  | setIntr on =>
    simp only [step] at h
    split at h
    · next hc =>
      cases h
      exact .setIntr on hc.1 hc.2
    · cases h
  | trap =>
    simp only [step] at h
    split at h
    · next hintr =>
      cases h
      exact .trap hintr
    · cases h
  | sret =>
    simp only [step] at h
    split at h
    · cases h
    · next f below hbelow =>
      split at h
      · next hc =>
        cases h
        exact .sret f below hbelow hc.1 hc.2
      · cases h
  | sched =>
    simp only [step] at h
    split at h
    · cases h
    · next t hcur =>
      split at h
      · next hc =>
        simp only [State.sched] at h
        split at h
        · cases h
        · split at h
          · cases h
          · split at h
            · cases h
            · cases h
              exact .sched t hcur hc.1 hc.2
      · cases h
  | run t =>
    simp only [step] at h
    split at h
    · next hc =>
      cases h
      exact .run t hc.1 hc.2.1 hc.2.2
    · cases h

/-! ## The invariant -/

/-- What holds between steps. -/
structure Inv (plock : T → L) (s : State T L) : Prop where
  noff : s.noff = s.me.out.length
  off : s.me.out ≠ [] → s.intr = false
  /-- `old` is the state of interrupts until intr_off -/
  top : ∀ h old, s.me.top = some (h, old) → old = s.intr
  /-- interrupted code had interrupts on -/
  below : ∀ u, ∀ f ∈ (s.thread u).below, ∀ h old, f = some (h, old) → old = true
  /-- a thread that does not run has one push_off outstanding, for its p->lock -/
  away : ∀ t, s.cur ≠ some t → (s.thread (some t)).out = [.lock (plock t)] ∧ (s.thread (some t)).top = none
  scheduler : ∀ t, s.cur = some t → (s.thread none).out = [.lock (plock t)] ∧ (s.thread none).top = none
  locked : ∀ l, s.me.out.count (.lock l) = if s.locked l then 1 else 0

/-- A step of the running thread leaves the others alone. -/
theorem Inv.update {s s' : State T L} (hi : Inv plock s) (hcur : s'.cur = s.cur)
    (hother : ∀ u, u ≠ s.cur → s'.thread u = s.thread u) (hnoff : s'.noff = s'.me.out.length)
    (hoff : s'.me.out ≠ [] → s'.intr = false) (htop : ∀ h old, s'.me.top = some (h, old) → old = s'.intr)
    (hbelow : ∀ f ∈ s'.me.below, ∀ h old, f = some (h, old) → old = true)
    (hlocked : ∀ l, s'.me.out.count (.lock l) = if s'.locked l then 1 else 0) : Inv plock s' where
  noff := hnoff
  off := hoff
  top := htop
  below u f hf := by
    by_cases hu : u = s.cur
    · rw [hu, ← hcur] at hf
      exact hbelow f hf
    · rw [hother u hu] at hf
      exact hi.below u f hf
  away t ht := by
    rw [hcur] at ht
    rw [hother _ (Ne.symm ht)]
    exact hi.away t ht
  scheduler t ht := by
    rw [hcur] at ht
    rw [hother none (by simp [ht])]
    exact hi.scheduler t ht
  locked := hlocked

theorem Inv.init {s : State T L} (h : Init plock s) : Inv plock s where
  noff := by rw [h.noff, State.me, h.cur, h.scheduler.1]; rfl
  off hne := by
    rw [State.me, h.cur, h.scheduler.1] at hne
    exact absurd rfl hne
  top hd old ht := by
    rw [State.me, h.cur, h.scheduler.2.1] at ht
    cases ht
  below u f hf := by
    cases u with
    | none =>
      rw [h.scheduler.2.2] at hf
      cases hf
    | some t =>
      rw [h.process] at hf
      cases hf
  away t _ := by
    rw [h.process]
    exact ⟨rfl, rfl⟩
  scheduler t ht := by
    rw [h.cur] at ht
    cases ht
  locked l := by
    rw [State.me, h.cur, h.scheduler.1, h.locked]
    rfl

theorem Inv.moves {s s' : State T L} (hi : Inv plock s) (hm : Moves plock s s') : Inv plock s' := by
  have hbelow := hi.below s.cur
  cases hm with
  | intrGet h htop =>
    refine hi.update rfl (fun u hu => State.thread_setMe_of_ne hu) ?_ ?_ ?_ ?_ ?_ <;> simp only [State.me_setMe]
    · exact hi.noff
    · exact hi.off
    · rintro _ _ ⟨⟩
      rfl
    · exact hbelow
    · exact hi.locked
  | push h old htop hfree =>
    have hme : ((s.pushOff h old).setHold h true).me = { s.me with out := h :: s.me.out, top := none } := by
      simp [State.pushOff]
    refine hi.update (by simp; rfl) (fun u hu => by simp; exact State.thread_setMe_of_ne hu) ?_ ?_ ?_ ?_ ?_ <;>
      simp only [hme]
    · simp [State.pushOff, State.setMe, hi.noff]
    · intro _
      simp [State.pushOff, State.setMe]
    · nofun
    · exact hbelow
    · intro l
      rw [State.setHold_locked, List.count_cons, hi.locked]
      by_cases hl : h = .lock l
      · simp [hl, hfree l hl]
      · simp [hl, State.pushOff, State.setMe]
  | pop h hmem htop hheld =>
    have hme : ((s.setHold h false).popped h).me = { s.me with out := s.me.out.erase h } := by
      simp [State.popped]
    have hother : ∀ u, u ≠ s.cur → ((s.setHold h false).popped h).thread u = s.thread u := by
      intro u hu
      rw [State.popped, State.thread_setMe_of_ne (by simpa using hu)]
      simp
    have hlen := List.length_erase_of_mem hmem
    refine hi.update (by simp [State.popped, State.setMe]) hother ?_ ?_ ?_ ?_ ?_ <;> simp only [hme]
    · simp [State.popped, State.setMe, hi.noff, hlen]
    · intro hne
      have hlen' := List.length_pos_iff.mpr hne
      have hnoff := hi.noff
      simp only [State.popped, State.setMe, State.setHold_noff, Bool.and_eq_false_imp, decide_eq_true_eq]
      omega
    · intro hd old ht
      rw [htop] at ht
      cases ht
    · exact hbelow
    · intro l
      simp only [State.popped, State.setMe, State.setHold_locked]
      rw [List.count_erase, hi.locked]
      by_cases hl : h = .lock l
      · simp [hl, hheld l hl]
      · simp [hl]
  | setIntr on hout htop =>
    refine hi.update rfl (fun u hu => rfl) hi.noff (fun hne => absurd hout hne) ?_ hbelow hi.locked
    intro h old ht
    rw [show State.me { s with intr := on } = s.me from rfl, htop] at ht
    cases ht
  | trap hintr =>
    refine hi.update rfl (fun u hu => State.thread_setMe_of_ne hu) ?_ ?_ ?_ ?_ ?_ <;> simp only [State.me_setMe]
    · exact hi.noff
    · exact fun _ => rfl
    · nofun
    · intro f hf h old he
      rcases List.mem_cons.mp hf with rfl | hf
      · exact (hi.top h old he).trans hintr
      · exact hbelow f hf h old he
    · exact hi.locked
  | sret f below hb hout htop =>
    have hb : (s.thread s.cur).below = f :: below := hb
    refine hi.update rfl (fun u hu => State.thread_setMe_of_ne hu) ?_ ?_ ?_ ?_ ?_ <;> simp only [State.me_setMe]
    · exact hi.noff
    · exact fun hne => absurd hout hne
    · exact fun h old he => hbelow f (by rw [hb]; exact List.mem_cons_self) h old he
    · exact fun g hg => hbelow g (by rw [hb]; exact List.mem_cons_of_mem f hg)
    · exact hi.locked
  | sched t hcur hout htop =>
    -- the scheduler has the processor, with one push_off outstanding for the same lock
    obtain ⟨hsout, hstop⟩ := hi.scheduler t hcur
    have hnone : (s.setMe { s.me with saved := some s.intena }).thread none = s.thread none :=
      State.thread_setMe_of_ne (by simp [hcur])
    have hme : State.me { s.setMe { s.me with saved := some s.intena } with cur := none } = s.thread none := hnone
    have hcount := hi.locked
    have hlen := hi.noff
    rw [hout] at hcount hlen
    refine ⟨?_, ?_, ?_, ?_, ?_, nofun, ?_⟩
    · rw [hme, hsout]
      exact hlen
    · exact fun _ => hi.off (by simp [hout])
    · intro h old ht
      rw [hme, hstop] at ht
      cases ht
    · intro u f hf
      by_cases hu : u = s.cur
      · subst hu
        rw [show (s.setMe { s.me with saved := some s.intena }).thread s.cur = _ from Function.update_self ..] at hf
        exact hbelow f hf
      · rw [State.thread_setMe_of_ne hu] at hf
        exact hi.below u f hf
    · intro u _
      by_cases hu : u = t
      · subst hu
        rw [← hcur, show (s.setMe { s.me with saved := some s.intena }).thread s.cur = _ from Function.update_self ..]
        exact ⟨hout, htop⟩
      · rw [State.thread_setMe_of_ne (by simpa [hcur] using hu)]
        exact hi.away u (by simpa [hcur] using Ne.symm hu)
    · intro l
      rw [hme, hsout]
      exact hcount l
  | run t hcur hout htop =>
    obtain ⟨htout, httop⟩ := hi.away t (by simp [hcur])
    have hme : (s.run t).me = s.thread (some t) := rfl
    have hsched : s.me = s.thread none := by rw [State.me, hcur]
    have hcount := hi.locked
    have hlen := hi.noff
    rw [hout] at hcount hlen
    refine ⟨?_, ?_, ?_, hi.below, ?_, ?_, ?_⟩
    · rw [hme, htout]
      exact hlen
    · exact fun _ => hi.off (by simp [hout])
    · intro h old ht
      rw [hme, httop] at ht
      cases ht
    · exact fun u _ => hi.away u (by simp [hcur])
    · rintro _ ⟨⟩
      rw [hsched] at hout htop
      exact ⟨hout, htop⟩
    · intro l
      rw [hme, htout]
      exact hcount l

theorem Inv.of_reach {s : State T L} (h : Reach (step plock) (Init plock) s) : Inv plock s :=
  h.invariant (fun _ => Inv.init) fun _ _ _ hi hs => hi.moves (moves_of_step hs)

theorem Inv.locked_of_mem {s : State T L} (hi : Inv plock s) {l : L} (h : .lock l ∈ s.me.out) : s.locked l = true := by
  have hcount := hi.locked l
  have hpos := List.count_pos_iff.mpr h
  by_contra hl
  rw [if_neg hl] at hcount
  omega

/-- The one panic a thread can run into is acquire's, for a lock it holds. -/
theorem Inv.panic {s : State T L} (hi : Inv plock s) {a : Label T L} {m : String} (h : step plock s a = .panic m) :
    m = "acquire" := by
  cases a with
  | intrGet hd =>
    simp only [step] at h
    split at h <;> cases h
  | pushOff =>
    simp only [step] at h
    split at h
    · cases h
    · next hd old htop =>
      cases hd with
      | bare => cases h
      | lock l =>
        simp only [State.take] at h
        split at h
        · cases h
          rfl
        · cases h
  | popOff hd =>
    simp only [step] at h
    split at h
    · next hc =>
      have hoff := hi.off (List.ne_nil_of_mem hc.1)
      have hnoff := hi.noff
      have hpos := List.length_pos_of_mem hc.1
      split at h
      · next s1 hdrop =>
        obtain ⟨rfl, -⟩ := State.drop_ok hdrop
        simp only [State.popOff, State.setHold_intr, State.setHold_noff, hoff, Bool.false_eq_true, if_false] at h
        rw [if_neg (by omega)] at h
        cases h
      · next m' hdrop =>
        cases hd with
        | bare => cases hdrop
        | lock l =>
          rw [State.drop, if_pos (hi.locked_of_mem hc.1)] at hdrop
          cases hdrop
      · cases h
    · cases h
  | setIntr on =>
    simp only [step] at h
    split at h <;> cases h
  | trap =>
    simp only [step] at h
    split at h <;> cases h
  | sret =>
    simp only [step] at h
    split at h
    · cases h
    · split at h <;> cases h
  | sched =>
    simp only [step] at h
    split at h
    · cases h
    · next t hcur =>
      split at h
      · next hc =>
        have hnoff := hi.noff
        have hoff := hi.off (by simp [hc.1])
        rw [hc.1] at hnoff
        simp [State.sched, hi.locked_of_mem (show .lock (plock t) ∈ s.me.out by simp [hc.1]), hnoff, hoff] at h
      · cases h
  | run t =>
    simp only [step] at h
    split at h <;> cases h

/-! ## What a thread found at its outermost push_off -/

/-- `b` is where it will be restored from. -/
def Keeps (t : T) (b : Bool) (s : State T L) : Prop :=
  if s.cur = some t then s.intena = b else (s.thread (some t)).saved = some b

/-- A step of the running thread that stays: of another one, or of this one with `intena` left alone. -/
theorem Keeps.update {s s' : State T L} {t : T} {b : Bool} (hk : Keeps t b s) (hcur : s'.cur = s.cur)
    (hother : ∀ u, u ≠ s.cur → s'.thread u = s.thread u) (hintena : s.cur = some t → s'.intena = s.intena) :
    Keeps t b s' := by
  unfold Keeps at hk ⊢
  rw [hcur]
  split
  · next h =>
    rw [if_pos h] at hk
    rw [hintena h, hk]
  · next h =>
    rw [if_neg h] at hk
    rw [hother _ (Ne.symm h), hk]

theorem Keeps.moves {s s' : State T L} {t : T} {b : Bool} (hi : Inv plock s) (hk : Keeps t b s)
    (hne : (s.thread (some t)).out ≠ []) (hm : Moves plock s s') : Keeps t b s' := by
  cases hm with
  | intrGet h htop => exact hk.update rfl (fun u hu => State.thread_setMe_of_ne hu) fun _ => rfl
  | push h old htop hfree =>
    refine hk.update (by simp; rfl) (fun u hu => by simp; exact State.thread_setMe_of_ne hu) fun hcur => ?_
    have hnoff : s.noff ≠ 0 := by
      rw [hi.noff, State.me, hcur]
      exact fun h => hne (List.length_eq_zero_iff.mp h)
    simp [State.pushOff, State.setMe, hnoff]
  | pop h hmem htop hheld =>
    refine hk.update (by simp [State.popped, State.setMe]) (fun u hu => ?_) fun _ => ?_
    · rw [State.popped, State.thread_setMe_of_ne (by simpa using hu)]
      simp
    · simp [State.popped, State.setMe]
  | setIntr on hout htop => exact hk.update rfl (fun u hu => rfl) fun _ => rfl
  | trap hintr => exact hk.update rfl (fun u hu => State.thread_setMe_of_ne hu) fun _ => rfl
  | sret f below hb hout htop => exact hk.update rfl (fun u hu => State.thread_setMe_of_ne hu) fun _ => rfl
  | sched u hcur hout htop =>
    unfold Keeps at hk ⊢
    rw [if_neg (by simp)]
    by_cases hu : u = t
    · subst hu
      rw [if_pos hcur] at hk
      rw [← hcur, show (s.setMe { s.me with saved := some s.intena }).thread s.cur = _ from Function.update_self .., hk]
    · rw [if_neg (by simpa [hcur] using hu)] at hk
      rw [State.thread_setMe_of_ne (by simpa [hcur] using Ne.symm hu), hk]
  | run u hcur hout htop =>
    unfold Keeps at hk ⊢
    rw [if_neg (by simp [hcur])] at hk
    by_cases hu : u = t
    · subst hu
      rw [if_pos (show (s.run u).cur = some u from rfl)]
      simp [State.run, hk]
    · rw [if_neg (by simpa [State.run] using hu)]
      exact hk

/-- The last pop_off restores it. -/
theorem Keeps.restored {s s' : State T L} {t : T} {b : Bool} (hi : Inv plock s) (hk : Keeps t b s)
    (hne : (s.thread (some t)).out ≠ []) (hm : Moves plock s s') (hout' : (s'.thread (some t)).out = []) :
    s'.intr = b := by
  cases hm with
  | intrGet h htop =>
    rw [State.out_setMe (by rfl)] at hout'
    exact absurd hout' hne
  | push h old htop hfree =>
    by_cases hcur : some t = s.cur
    · simp [State.pushOff, State.setMe, hcur] at hout'
    · simp only [State.setHold_thread, State.pushOff] at hout'
      rw [State.thread_setMe_of_ne (by exact hcur)] at hout'
      exact absurd hout' hne
  | pop h hmem htop hheld =>
    by_cases hcur : some t = s.cur
    · have hlen := List.length_erase_of_mem hmem
      have hnoff := hi.noff
      rw [Keeps, if_pos hcur.symm] at hk
      simp only [State.popped, State.setMe, State.setHold_cur, ← hcur, Function.update_self, State.setHold_me] at hout'
      rw [hout', List.length_nil] at hlen
      simp [State.popped, State.setMe, hk, hnoff, ← hlen]
    · rw [State.popped, State.thread_setMe_of_ne (by simpa using hcur)] at hout'
      simp only [State.setHold_thread] at hout'
      exact absurd hout' hne
  | setIntr on hout htop => exact absurd hout' hne
  | trap hintr =>
    rw [State.out_setMe (by rfl)] at hout'
    exact absurd hout' hne
  | sret f below hb hout htop =>
    rw [State.out_setMe (by rfl)] at hout'
    exact absurd hout' hne
  | sched u hcur hout htop =>
    change ((s.setMe { s.me with saved := some s.intena }).thread (some t)).out = [] at hout'
    rw [State.out_setMe (by rfl)] at hout'
    exact absurd hout' hne
  | run u hcur hout htop => exact absurd hout' hne

/-- Over a run in which the thread has something outstanding until the end. -/
theorem Keeps.runs {s s' : State T L} {t : T} {b : Bool} {as : List (Label T L)} (hi : Inv plock s) (hk : Keeps t b s)
    (hne : (s.thread (some t)).out ≠ [])
    (hal : Along (step plock) (fun s _ => (s.thread (some t)).out ≠ []) s as)
    (hr : Lib.runs (step plock) s as = .ok s') (hout' : (s'.thread (some t)).out = []) : s'.intr = b := by
  induction as generalizing s with
  | nil =>
    cases hr
    exact absurd hout' hne
  | cons a as ih =>
    have hal := hal.2
    simp only [Lib.runs] at hr
    split at hr
    · next s1 he =>
      have hm := moves_of_step he
      by_cases h1 : (s1.thread (some t)).out = []
      · cases as with
        | nil =>
          cases hr
          exact hk.restored hi hne hm hout'
        | cons a2 as =>
          rw [he] at hal
          exact absurd h1 hal.1
      · rw [he] at hal
        exact ih (hi.moves hm) (hk.moves hi hne hm) h1 hal hr
    · cases hr
    · cases hr

/-- **Interrupts follow the nesting of locks.** In every state reached `noff` is the number of push_offs the running
thread has outstanding, interrupts are off while it is positive, and pop_off does not panic. If a process thread makes
its outermost push_off there, then in every run in which it keeps something outstanding until the end, whatever other
threads do in it, the pop_off after which nothing is leaves interrupts as they were. -/
theorem interrupts_follow_nesting {s : State T L} (h : Reach (step plock) (Init plock) s) :
    s.noff = s.me.out.length ∧ (0 < s.noff → s.intr = false) ∧
    (∀ a, step plock s a ≠ .panic "pop_off" ∧ step plock s a ≠ .panic "pop_off - interruptible") ∧
    ∀ t s1 s2 as, s.cur = some t → s.me.out = [] → step plock s .pushOff = .ok s1 →
      Along (step plock) (fun s _ => (s.thread (some t)).out ≠ []) s1 as →
      runs (step plock) s1 as = .ok s2 → (s2.thread (some t)).out = [] → s2.intr = s.intr := by
  have hi := Inv.of_reach h
  refine ⟨hi.noff, fun hpos => ?_, fun a => ⟨fun he => ?_, fun he => ?_⟩, ?_⟩
  · rw [hi.noff] at hpos
    exact hi.off (List.length_pos_iff.mp hpos)
  · exact absurd (hi.panic he) (by decide)
  · exact absurd (hi.panic he) (by decide)
  · intro t s1 s2 as hcur hout hpush hal hr hout2
    have hm := moves_of_step hpush
    have hi1 := hi.moves hm
    simp only [step] at hpush
    split at hpush
    · cases hpush
    · next hd old htop =>
      obtain ⟨rfl, -⟩ := State.take_ok hpush
      have hnoff := hi.noff
      rw [hout] at hnoff
      have hthread : (((s.pushOff hd old).setHold hd true).thread (some t)).out ≠ [] := by
        simp [State.pushOff, State.setMe, ← hcur]
      refine Keeps.runs hi1 ?_ hthread hal hr hout2
      rw [Keeps, if_pos (by simpa [State.pushOff, State.setMe] using hcur)]
      simp [State.pushOff, State.setMe, hnoff, hi.top hd old htop]

/-- A processor with one process, `()`, and two locks: its p->lock, `true`, and another one. -/
def demo : State Unit Bool where
  noff := 0
  intena := false
  intr := false
  locked _ := false
  cur := none
  thread
    | none => ⟨[], none, [], none⟩
    | some () => ⟨[.lock true], none, [], none⟩

/-- The process has started, has switched interrupts on and is in an acquire. -/
def demoStart : List (Label Unit Bool) :=
  [.setIntr true, .intrGet (.lock true), .pushOff, .run (), .popOff (.lock true), .setIntr true, .intrGet (.lock false)]

/-- It goes to sleep; the scheduler switches interrupts off and runs it again. -/
def demoSleep : List (Label Unit Bool) :=
  [.intrGet (.lock true), .pushOff, .popOff (.lock false), .sched, .popOff (.lock true), .setIntr false,
    .intrGet (.lock true), .pushOff, .run (), .popOff (.lock true)]

/-- The state a run of the demonstration ends in. -/
def demoAfter (as : List (Label Unit Bool)) : State Unit Bool :=
  match runs (step fun _ => true) demo as with
  | .ok s => s
  | _ => demo

theorem interrupts_follow_nesting_sleep :
    (demoAfter demoStart).intr = true ∧
    (demoAfter (demoStart ++ .pushOff :: demoSleep)).intr = (demoAfter demoStart).intr := by
  have hinit : Init (fun _ => true) demo := ⟨rfl, fun _ => rfl, rfl, ⟨rfl, rfl, rfl⟩, fun _ => rfl⟩
  have hruns : runs (step fun _ => true) demo demoStart = .ok (demoAfter demoStart) := rfl
  have hreach := (Reach.init hinit).of_runs hruns
  refine ⟨rfl, ?_⟩
  exact (interrupts_follow_nesting hreach).2.2.2 () (demoAfter (demoStart ++ [.pushOff])) _ demoSleep rfl rfl rfl
    (by decide) rfl rfl

end Xv6.Spinlock
