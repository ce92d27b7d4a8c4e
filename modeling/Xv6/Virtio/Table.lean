/-
The descriptor table. alloc3_desc takes three different free descriptors or leaves the
table as it was but for the contents of free ones; free_chain follows the three it is
given and frees exactly those (`alloc3Desc_cases`, `freeChain_three`), so neither reaches
one of free_desc's panics. `Table` is what holds between steps: the calls in flight own
disjoint chains, each formed for its own request, and the rest of the table is free.
-/
import Xv6.Virtio.Model

namespace Xv6.Virtio

open Lib

set_option linter.unusedSectionVars false

variable {P B D : Type} [DecidableEq P] [DecidableEq B]

/-! ## What a process has -/

/-- The chain of a process that has one. -/
def Pc.flight : Pc B → Option (Flight B)
  | .flying f _ => some f
  | _ => none

/-- The buffer of the call a process is in. -/
def Pc.buf : Pc B → Option B
  | .idle => none
  | .entry c => some c.buf
  | .waitFree c => some c.buf
  | .flying f _ => some f.call.buf

def State.flights (s : State P B D) (p : P) : Option (Flight B) := (s.pc p).flight

@[simp] theorem Pc.flight_wakeup (pc : Pc B) (c : Chan B) : (pc.wakeup c).flight = pc.flight := by
  unfold Pc.wakeup
  split <;> (try split) <;> rfl

@[simp] theorem Pc.buf_wakeup (pc : Pc B) (c : Chan B) : (pc.wakeup c).buf = pc.buf := by
  unfold Pc.wakeup
  split <;> (try split) <;> rfl

@[simp] theorem Pc.wakeup_wakeup (pc : Pc B) (c : Chan B) : (pc.wakeup c).wakeup c = pc.wakeup c := by
  match pc with
  | .idle => rfl
  | .entry _ => rfl
  | .waitFree _ =>
    by_cases h : c = .free
    · simp [Pc.wakeup, h]
    · simp [Pc.wakeup, h]
  | .flying _ .formed => rfl
  | .flying _ .testing => rfl
  | .flying f .asleep =>
    by_cases h : c = .buf f.call.buf
    · simp [Pc.wakeup, h]
    · simp [Pc.wakeup, h]
  | .flying _ .woken => rfl

/-- A process that is in flight after a wakeup was before it, at the same place unless it was asleep. -/
theorem Pc.of_wakeup_flying {pc : Pc B} {c : Chan B} {f : Flight B} {st : Stage} (h : pc.wakeup c = .flying f st) :
    pc = .flying f st ∨ st = .woken ∧ pc = .flying f .asleep := by
  unfold Pc.wakeup at h
  split at h
  · split at h <;> cases h
  · split at h
    · cases h
      exact .inr ⟨rfl, rfl⟩
    · exact .inl h
  · exact .inl h

@[simp] theorem State.wakeup_wakeup (s : State P B D) (c : Chan B) : (s.wakeup c).wakeup c = s.wakeup c := by
  simp [State.wakeup]

@[simp] theorem State.flights_wakeup (s : State P B D) (c : Chan B) : (s.wakeup c).flights = s.flights := by
  funext p
  simp [State.wakeup, State.flights]

@[simp] theorem State.pc_goto_self (s : State P B D) (p : P) (pc : Pc B) : (s.goto p pc).pc p = pc :=
  Function.update_self ..

theorem State.pc_goto_of_ne (s : State P B D) {p q : P} (h : q ≠ p) (pc : Pc B) : (s.goto p pc).pc q = s.pc q :=
  Function.update_of_ne h ..

theorem State.flights_goto (s : State P B D) (p : P) (pc : Pc B) :
    (s.goto p pc).flights = Function.update s.flights p pc.flight := by
  funext q
  by_cases h : q = p
  · subst h
    simp [State.goto, State.flights]
  · simp [State.goto, State.flights, Function.update_of_ne h]

/-- Where the process goes makes no difference to what it has. -/
theorem State.flights_goto_same {s : State P B D} {p : P} {pc : Pc B} (h : pc.flight = s.flights p) :
    (s.goto p pc).flights = s.flights := by
  rw [State.flights_goto, h, Function.update_eq_self]

theorem Pc.flight_eq_some {pc : Pc B} {f : Flight B} (h : pc.flight = some f) : ∃ st, pc = .flying f st := by
  cases pc with
  | flying g st =>
    cases h
    exact ⟨st, rfl⟩
  | _ => cases h

theorem Pc.buf_of_flight {pc : Pc B} {f : Flight B} (h : pc.flight = some f) : pc.buf = some f.call.buf := by
  obtain ⟨st, rfl⟩ := Pc.flight_eq_some h
  rfl

/-! ## Taking and giving back three descriptors -/

/-- An array with one value at the three indices. -/
def Idx.fill {α : Type} (x : Idx) (v : α) (a : Nat → α) : Nat → α := fun i => if i ∈ x.toList then v else a i

theorem Idx.fill_eq_update {α : Type} (x : Idx) (v : α) (a : Nat → α) :
    Function.update (Function.update (Function.update a x.i0 v) x.i1 v) x.i2 v = x.fill v a := by
  funext i
  simp only [Function.update_apply, Idx.fill, Idx.toList, List.mem_cons, List.not_mem_nil, or_false]
  by_cases h0 : i = x.i0
  · simp [h0]
  · by_cases h1 : i = x.i1
    · simp [h1]
    · simp [h0, h1]

theorem Idx.nodup_toList {x : Idx} : x.toList.Nodup ↔ x.i0 ≠ x.i1 ∧ x.i0 ≠ x.i2 ∧ x.i1 ≠ x.i2 := by
  simp [Idx.toList]
  tauto

namespace State

variable {s s' : State P B D}

theorem allocDesc_some {i : Nat} (h : s.allocDesc = some (i, s')) :
    i < NUM ∧ s.disk.free i = true ∧ s' = s.setFree i false := by
  simp only [allocDesc, Option.map_eq_some_iff, Prod.mk.injEq] at h
  obtain ⟨k, hk, rfl, rfl⟩ := h
  exact ⟨by simpa using List.mem_of_find?_eq_some hk, List.find?_some hk, rfl⟩

/-- What free_desc leaves. -/
def freed (s : State P B D) (i : Nat) : State P B D := ((s.setDesc i ⟨.null, 0, 0, 0⟩).setFree i true).wakeup .free

theorem freeDesc_ok {i : Nat} (hi : i < NUM) (hf : s.disk.free i = false) : s.freeDesc i = .ok (s.freed i) := by
  rw [freeDesc, if_neg (by omega), if_neg (by simp [hf])]
  rfl

@[simp] theorem free_setFree (i : Nat) (v : Bool) : (s.setFree i v).disk.free = Function.update s.disk.free i v := rfl

@[simp] theorem free_freed (i : Nat) : (s.freed i).disk.free = Function.update s.disk.free i true := rfl

@[simp] theorem desc_freed (i : Nat) : (s.freed i).disk.desc = Function.update s.disk.desc i ⟨.null, 0, 0, 0⟩ := rfl

/-- What alloc3_desc leaves when there are not three: free descriptors may have been cleared and sleepers woken. -/
structure Untaken (s s' : State P B D) : Prop where
  eq : s' = { s with disk := { s.disk with desc := s'.disk.desc }, pc := s'.pc }
  desc : ∀ i, s.disk.free i = false → s'.disk.desc i = s.disk.desc i
  pc : ∀ q, s'.pc q = s.pc q ∨ s'.pc q = (s.pc q).wakeup .free

theorem untaken_one {i : Nat} (hf : s.disk.free i = true) : Untaken s ((s.setFree i false).freed i) where
  eq := by simp [freed, wakeup, setFree, setDesc, ← hf]
  desc k hk := by
    have hne : k ≠ i := fun he => by simp [← he, hk] at hf
    simp [setFree, Function.update_of_ne hne]
  pc q := .inr rfl

theorem untaken_two {i k : Nat} (hne : k ≠ i) (hi : s.disk.free i = true) (hk : s.disk.free k = true) :
    Untaken s ((((s.setFree i false).setFree k false).freed i).freed k) where
  eq := by
    have hfree : Function.update (Function.update (Function.update (Function.update s.disk.free i false) k false) i true) k
        true = s.disk.free := by
      funext j
      simp only [Function.update_apply]
      by_cases hjk : j = k
      · simp [hjk, hk]
      · by_cases hji : j = i
        · simp [hji, hne.symm, hi]
        · simp [hjk, hji]
    simp [freed, wakeup, setFree, setDesc, hfree]
  desc j hj := by
    have hji : j ≠ i := fun he => by simp [← he, hj] at hi
    have hjk : j ≠ k := fun he => by simp [← he, hj] at hk
    simp [setFree, Function.update_of_ne hji, Function.update_of_ne hjk]
  pc q := .inr (by simp [freed, wakeup, setFree, setDesc])

/-- **alloc3_desc.** It does not panic. -/
theorem alloc3Desc_cases (s : State P B D) :
    (∃ x : Idx, x.toList.Nodup ∧ (∀ i ∈ x.toList, i < NUM ∧ s.disk.free i = true) ∧
      s.alloc3Desc = .ok (some x, { s with disk := { s.disk with free := x.fill false s.disk.free } })) ∨
    ∃ s', Untaken s s' ∧ s.alloc3Desc = .ok (none, s') := by
  cases h0 : s.allocDesc with
  | none => exact .inr ⟨s, ⟨rfl, fun _ _ => rfl, fun _ => .inl rfl⟩, by simp only [alloc3Desc, h0]⟩
  | some r0 =>
    obtain ⟨i0, s0⟩ := r0
    obtain ⟨hlt0, hf0, rfl⟩ := allocDesc_some h0
    cases h1 : (s.setFree i0 false).allocDesc with
    | none =>
      refine .inr ⟨_, untaken_one hf0, ?_⟩
      simp only [alloc3Desc, h0, h1, freeDesc_ok (s := s.setFree i0 false) hlt0 (by simp)]
      rfl
    | some r1 =>
      obtain ⟨i1, s1⟩ := r1
      obtain ⟨hlt1, hf1, rfl⟩ := allocDesc_some h1
      have hne01 : i1 ≠ i0 := fun he => by simp [he] at hf1
      have hf1' : s.disk.free i1 = true := by simpa [hne01] using hf1
      cases h2 : ((s.setFree i0 false).setFree i1 false).allocDesc with
      | none =>
        refine .inr ⟨_, untaken_two hne01 hf0 hf1', ?_⟩
        simp only [alloc3Desc, h0, h1, h2]
        rw [freeDesc_ok hlt0 (by simp [hne01.symm])]
        simp only [bind, Except.bind]
        rw [freeDesc_ok hlt1 (by simp [hne01])]
      | some r2 =>
        obtain ⟨i2, s2⟩ := r2
        obtain ⟨hlt2, hf2, rfl⟩ := allocDesc_some h2
        have hne12 : i2 ≠ i1 := fun he => by simp [he] at hf2
        have hne02 : i2 ≠ i0 := fun he => by simp [he, hne01.symm] at hf2
        have hf2' : s.disk.free i2 = true := by simpa [hne12, hne02] using hf2
        refine .inl ⟨⟨i0, i1, i2⟩, Idx.nodup_toList.mpr ⟨hne01.symm, hne02.symm, hne12.symm⟩, ?_, ?_⟩
        · simp [Idx.toList, hlt0, hlt1, hlt2, hf0, hf1', hf2']
        · simp only [alloc3Desc, h0, h1, h2]
          rw [← Idx.fill_eq_update]
          rfl

/-- **free_chain.** Over a chain of three descriptors in use it frees and clears these, and does not panic. -/
theorem freeChain_three {x : Idx} (hn : x.toList.Nodup) (hlt : ∀ i ∈ x.toList, i < NUM)
    (hf : ∀ i ∈ x.toList, s.disk.free i = false)
    (h0 : (s.disk.desc x.i0).flags &&& VRING_DESC_F_NEXT ≠ 0 ∧ (s.disk.desc x.i0).next = x.i1)
    (h1 : (s.disk.desc x.i1).flags &&& VRING_DESC_F_NEXT ≠ 0 ∧ (s.disk.desc x.i1).next = x.i2)
    (h2 : (s.disk.desc x.i2).flags &&& VRING_DESC_F_NEXT = 0) :
    s.freeChain (NUM + 1) x.i0 = .ok ({ s with disk := { s.disk with
      free := x.fill true s.disk.free, desc := x.fill ⟨.null, 0, 0, 0⟩ s.disk.desc } }.wakeup .free) := by
  obtain ⟨h01, h02, h12⟩ := Idx.nodup_toList.mp hn
  simp only [Idx.toList, List.mem_cons, List.not_mem_nil, or_false, forall_eq_or_imp, forall_eq] at hlt hf
  rw [NUM, freeChain, freeDesc_ok hlt.1 hf.1]
  simp only [bind, Except.bind, h0, ne_eq, not_false_eq_true, if_true]
  rw [freeChain, freeDesc_ok hlt.2.1 (by simp [h01.symm, hf])]
  simp only [bind, Except.bind, desc_freed, Function.update_of_ne h01.symm, h1, ne_eq, not_false_eq_true, if_true]
  rw [freeChain, freeDesc_ok hlt.2.2 (by simp [h02.symm, h12.symm, hf])]
  simp only [bind, Except.bind, desc_freed, Function.update_of_ne h02.symm, Function.update_of_ne h12.symm, h2, ne_eq,
    not_true_eq_false, if_false]
  simp [freed, wakeup, setFree, setDesc, Idx.fill_eq_update]

end State

/-! ## The table -/

/-- The three descriptors and what they point to are those of this call. -/
structure Formed (d : Disk B) (f : Flight B) : Prop where
  ops : d.ops f.idx.i0 = ⟨if f.call.write then VIRTIO_BLK_T_OUT else VIRTIO_BLK_T_IN, 0, f.call.sector⟩
  desc0 : d.desc f.idx.i0 = ⟨.ops f.idx.i0, 16, VRING_DESC_F_NEXT, f.idx.i1⟩
  desc1 : d.desc f.idx.i1 =
    ⟨.data f.call.buf, 1024, (if f.call.write then 0 else VRING_DESC_F_WRITE) ||| VRING_DESC_F_NEXT, f.idx.i2⟩
  desc2 : d.desc f.idx.i2 = ⟨.status f.idx.i0, 1, VRING_DESC_F_WRITE, 0⟩
  info : (d.info f.idx.i0).b = some f.call.buf

/-- Calls in flight own disjoint chains, each formed for its call; what nobody owns is free. -/
structure Table (F : P → Option (Flight B)) (d : Disk B) : Prop where
  nodup : ∀ p f, F p = some f → f.idx.toList.Nodup
  lt : ∀ p f, F p = some f → ∀ i ∈ f.idx.toList, i < NUM
  disjoint : ∀ p q f g i, F p = some f → F q = some g → i ∈ f.idx.toList → i ∈ g.idx.toList → p = q
  free : ∀ i < NUM, d.free i = false ↔ ∃ p f, F p = some f ∧ i ∈ f.idx.toList
  formed : ∀ p f, F p = some f → Formed d f

theorem Idx.mem_toList {x : Idx} {i : Nat} : i ∈ x.toList ↔ i = x.i0 ∨ i = x.i1 ∨ i = x.i2 := by simp [Idx.toList]

/-- Only what the chain points to matters. -/
theorem Formed.congr {d d' : Disk B} {f : Flight B} (h : Formed d f) (hops : d'.ops f.idx.i0 = d.ops f.idx.i0)
    (hdesc : ∀ i ∈ f.idx.toList, d'.desc i = d.desc i) (hb : (d'.info f.idx.i0).b = (d.info f.idx.i0).b) : Formed d' f where
  ops := hops.trans h.ops
  desc0 := (hdesc _ (by simp [Idx.mem_toList])).trans h.desc0
  desc1 := (hdesc _ (by simp [Idx.mem_toList])).trans h.desc1
  desc2 := (hdesc _ (by simp [Idx.mem_toList])).trans h.desc2
  info := hb.trans h.info

/-- The device finds the request. -/
theorem Formed.chainAt {d : Disk B} {f : Flight B} (h : Formed d f) :
    d.chainAt f.idx.i0 = some (d.ops f.idx.i0, f.call.buf, f.idx.i0) := by
  simp only [Disk.chainAt, h.desc0, h.desc1, h.desc2, h.ops]
  cases f.call.write
  · rw [if_neg (by decide)]
    simp only [Bool.false_eq_true, if_false]
    rw [if_neg (by decide)]
  · rw [if_neg (by decide)]
    simp only [if_true]
    rw [if_neg (by decide)]

namespace Table

variable {F : P → Option (Flight B)} {d d' : Disk B} {p : P} {f : Flight B}

theorem not_free (h : Table F d) (hp : F p = some f) {i : Nat} (hi : i ∈ f.idx.toList) : d.free i = false :=
  (h.free i (h.lt p f hp i hi)).mpr ⟨p, f, hp, hi⟩

/-- Descriptors that are free may change. -/
theorem frame (h : Table F d) (hfree : d'.free = d.free) (hops : d'.ops = d.ops)
    (hdesc : ∀ i, d.free i = false → d'.desc i = d.desc i) (hb : ∀ i, (d'.info i).b = (d.info i).b) : Table F d' where
  nodup := h.nodup
  lt := h.lt
  disjoint := h.disjoint
  free := hfree ▸ h.free
  formed p f hp := (h.formed p f hp).congr (by rw [hops]) (fun i hi => hdesc i (h.not_free hp hi)) (hb _)

/-- A call gets three descriptors that were free. -/
theorem add (h : Table F d) (hp : F p = none) (hn : f.idx.toList.Nodup)
    (hx : ∀ i ∈ f.idx.toList, i < NUM ∧ d.free i = true) (hfree : d'.free = f.idx.fill false d.free)
    (hops : ∀ i, i ∉ f.idx.toList → d'.ops i = d.ops i) (hdesc : ∀ i, i ∉ f.idx.toList → d'.desc i = d.desc i)
    (hb : ∀ i, i ∉ f.idx.toList → (d'.info i).b = (d.info i).b) (hform : Formed d' f) :
    Table (Function.update F p (some f)) d' := by
  -- nobody else has one of the three
  have hother : ∀ q g, Function.update F p (some f) q = some g → q ≠ p → F q = some g ∧ ∀ i ∈ g.idx.toList, i ∉ f.idx.toList := by
    intro q g hq hne
    rw [Function.update_of_ne hne] at hq
    refine ⟨hq, fun i hi hif => ?_⟩
    have := h.not_free hq hi
    rw [(hx i hif).2] at this
    cases this
  have hself : ∀ g, Function.update F p (some f) p = some g → g = f := by
    intro g hg
    rw [Function.update_self] at hg
    exact (Option.some.inj hg).symm
  refine ⟨fun q g hq => ?_, fun q g hq i hi => ?_, fun q r g g' i hq hr hi hi' => ?_, fun i hi => ?_, fun q g hq => ?_⟩
  · by_cases hqp : q = p
    · subst hqp
      rwa [hself g hq]
    · exact h.nodup q g (hother q g hq hqp).1
  · by_cases hqp : q = p
    · subst hqp
      rw [hself g hq] at hi
      exact (hx i hi).1
    · exact h.lt q g (hother q g hq hqp).1 i hi
  · by_cases hqp : q = p
    · by_cases hrp : r = p
      · rw [hqp, hrp]
      · subst hqp
        rw [hself g hq] at hi
        exact absurd hi ((hother r g' hr hrp).2 i hi')
    · by_cases hrp : r = p
      · subst hrp
        rw [hself g' hr] at hi'
        exact absurd hi' ((hother q g hq hqp).2 i hi)
      · exact h.disjoint q r g g' i (hother q g hq hqp).1 (hother r g' hr hrp).1 hi hi'
  · rw [hfree, Idx.fill]
    split
    · next hif => exact ⟨fun _ => ⟨p, f, Function.update_self .., hif⟩, fun _ => rfl⟩
    · next hif =>
      rw [h.free i hi]
      constructor
      · rintro ⟨q, g, hq, hig⟩
        have hne : q ≠ p := fun he => by rw [he, hp] at hq; cases hq
        exact ⟨q, g, by rwa [Function.update_of_ne hne], hig⟩
      · rintro ⟨q, g, hq, hig⟩
        by_cases hqp : q = p
        · subst hqp
          rw [hself g hq] at hig
          exact absurd hig hif
        · exact ⟨q, g, (hother q g hq hqp).1, hig⟩
  · by_cases hqp : q = p
    · subst hqp
      rw [hself g hq]
      exact hform
    · obtain ⟨hq, hnot⟩ := hother q g hq hqp
      have h0 : g.idx.i0 ∈ g.idx.toList := by simp [Idx.mem_toList]
      exact (h.formed q g hq).congr (hops _ (hnot _ h0)) (fun i hi => hdesc i (hnot i hi)) (hb _ (hnot _ h0))

/-- A call gives its descriptors back. -/
theorem remove (h : Table F d) (hp : F p = some f) (hfree : d'.free = f.idx.fill true d.free)
    (hops : ∀ i, i ∉ f.idx.toList → d'.ops i = d.ops i) (hdesc : ∀ i, i ∉ f.idx.toList → d'.desc i = d.desc i)
    (hb : ∀ i, i ∉ f.idx.toList → (d'.info i).b = (d.info i).b) : Table (Function.update F p none) d' := by
  have hother : ∀ q g, Function.update F p none q = some g →
      q ≠ p ∧ F q = some g ∧ ∀ i ∈ g.idx.toList, i ∉ f.idx.toList := by
    intro q g hq
    by_cases hqp : q = p
    · rw [hqp, Function.update_self] at hq
      cases hq
    · rw [Function.update_of_ne hqp] at hq
      exact ⟨hqp, hq, fun i hi hif => hqp (h.disjoint q p g f i hq hp hi hif)⟩
  refine ⟨fun q g hq => h.nodup q g (hother q g hq).2.1, fun q g hq => h.lt q g (hother q g hq).2.1,
    fun q r g g' i hq hr => h.disjoint q r g g' i (hother q g hq).2.1 (hother r g' hr).2.1, fun i hi => ?_, fun q g hq => ?_⟩
  · rw [hfree, Idx.fill]
    split
    · next hif =>
      refine ⟨nofun, ?_⟩
      rintro ⟨q, g, hq, hig⟩
      exact absurd hif ((hother q g hq).2.2 i hig)
    · next hif =>
      rw [h.free i hi]
      constructor
      · rintro ⟨q, g, hq, hig⟩
        have hne : q ≠ p := by
          rintro rfl
          rw [hp] at hq
          cases hq
          exact hif hig
        exact ⟨q, g, by rwa [Function.update_of_ne hne], hig⟩
      · rintro ⟨q, g, hq, hig⟩
        exact ⟨q, g, (hother q g hq).2.1, hig⟩
  · obtain ⟨-, hq, hnot⟩ := hother q g hq
    have h0 : g.idx.i0 ∈ g.idx.toList := by simp [Idx.mem_toList]
    exact (h.formed q g hq).congr (hops _ (hnot _ h0)) (fun i hi => hdesc i (hnot i hi)) (hb _ (hnot _ h0))

end Table

/-- What virtio_disk_rw leaves when it returns. -/
def State.returned (s : State P B D) (p : P) (f : Flight B) : State P B D :=
  ({ s with
    disk := { s.disk with
      free := f.idx.fill true s.disk.free
      desc := f.idx.fill ⟨.null, 0, 0, 0⟩ s.disk.desc
      info := Function.update s.disk.info f.idx.i0 { s.disk.info f.idx.i0 with b := none } }
    lock := none }.wakeup .free).goto p .idle

theorem Table.finish_eq {s : State P B D} {F : P → Option (Flight B)} {p : P} {f : Flight B} (h : Table F s.disk)
    (hp : F p = some f) : s.finish p f = .ok (s.returned p f) := by
  have hform := h.formed p f hp
  have hchain := State.freeChain_three (s := s.setInfo f.idx.i0 { s.disk.info f.idx.i0 with b := none })
    (h.nodup p f hp) (h.lt p f hp) (fun k hk => h.not_free hp hk)
    (by simp only [State.setInfo, hform.desc0]; decide) (by
      simp only [State.setInfo, hform.desc1]
      cases f.call.write <;> decide) (by simp only [State.setInfo, hform.desc2]; decide)
  rw [State.finish, hchain]
  rfl

end Xv6.Virtio
