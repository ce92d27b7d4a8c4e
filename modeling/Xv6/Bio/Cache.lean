/-
The buffer cache keeps one copy of a block. Whatever its clients do, as long as they
change a buffer only while they hold it and release it written or pinned (`Client`):
no two buffers cache one block, a buffer's `refcnt` counts its users and a buffer in use
is not recycled, the links are one circular list of all the buffers, and bread returns
what a client stored last (`buffer_cache`).

Buffers start as block 0 of device 0, all of them. A buffer nobody has used yet is
`Fresh`; a used buffer for that block stands before every fresh one in the list, so bget
finds it first.
-/
import Xv6.Bio.Model

namespace Xv6.Bio

open Lib

variable {α : Type}

/-! ## Who uses a buffer -/

namespace Pc

def waitsFor : Pc → Option (Fin NBUF)
  | .wait b _ _ => some b
  | _ => none

/-- In brelse, the buffer already unlocked. -/
def drops : Pc → Option (Fin NBUF)
  | .releasing b => some b
  | _ => none

/-- In bread, the buffer locked and its contents not there yet. -/
def loads : Pc → Option (Fin NBUF)
  | .locked b _ _ | .reading b _ _ => some b
  | _ => none

/-- The buffer the call is about. -/
def about : Pc → Option (Fin NBUF)
  | .idle => none
  | .wait b _ _ | .locked b _ _ | .reading b _ _ | .got b _ _ | .writing b | .releasing b => some b

/-- The references of a call that the sleep lock does not stand for. -/
def refs (pc : Pc) (b : Fin NBUF) : Nat :=
  (if pc.waitsFor = some b then 1 else 0) + if pc.drops = some b then 1 else 0

theorem refs_le (pc : Pc) (b : Fin NBUF) : pc.refs b ≤ 1 := by
  unfold refs
  split_ifs with h1 h2
  · cases pc <;> simp [waitsFor, drops] at h1 h2
  all_goals simp

theorem not_about {pc : Pc} {b : Fin NBUF} (h : pc.about ≠ some b) :
    pc.refs b = 0 ∧ pc.waitsFor ≠ some b ∧ pc.loads ≠ some b := by
  cases pc <;> simp_all [about, refs, waitsFor, drops, loads]

end Pc

namespace St

variable (s : St α) (b : Fin NBUF)

def key : UInt32 × UInt32 := ((s.buf b).dev, (s.buf b).blockno)

def Fresh : Prop := (s.buf b).valid = false ∧ (s.buf b).refcnt = 0

/-- The processes between bget's `refcnt++` and brelse's `refcnt--`, those that wait for the buffer apart. -/
def holders : Nat :=
  (if (s.buf b).lock.isSome then 1 else 0) + (Finset.univ.filter fun t => (s.pc t).drops = some b).card

def waiters : Nat := (Finset.univ.filter fun t => (s.pc t).waitsFor = some b).card

def users : Nat := ∑ t, (s.pc t).refs b

theorem users_add_lock : (if (s.buf b).lock.isSome then 1 else 0) + s.users b = s.holders b + s.waiters b := by
  rw [users, holders, waiters, Finset.card_filter, Finset.card_filter]
  simp only [Pc.refs, Finset.sum_add_distrib]
  omega

theorem users_le : s.users b ≤ NPROC :=
  calc s.users b ≤ ∑ _t : Fin NPROC, 1 := Finset.sum_le_sum fun t _ => (s.pc t).refs_le b
    _ = NPROC := by simp

variable {s b}

theorem refs_le_users (t : Fin NPROC) : (s.pc t).refs b ≤ s.users b :=
  Finset.single_le_sum (f := fun t => (s.pc t).refs b) (fun _ _ => Nat.zero_le _) (Finset.mem_univ t)

/-- One process moves. -/
theorem users_update {s' : St α} {t : Fin NPROC} {pc : Pc} (h : s'.pc = Function.update s.pc t pc) :
    s'.users b + (s.pc t).refs b = s.users b + pc.refs b := by
  have hs : ∀ f : Fin NPROC → Nat, ∑ u, f u = f t + ∑ u ∈ Finset.univ.erase t, f u := fun f =>
    (Finset.add_sum_erase _ f (Finset.mem_univ t)).symm
  have he : ∑ u ∈ Finset.univ.erase t, (s'.pc u).refs b = ∑ u ∈ Finset.univ.erase t, (s.pc u).refs b := by
    refine Finset.sum_congr rfl fun u hu => ?_
    rw [h, Function.update_of_ne (Finset.ne_of_mem_erase hu)]
  have ht : s'.pc t = pc := by rw [h, Function.update_self]
  rw [users, users, hs, hs fun u => (s.pc u).refs b, he, ht]
  omega

end St

/-- Buffer `b` becomes `v` and process `t` goes to `pc`, in a call about that buffer. -/
structure Moves (s s' : St α) (b : Fin NBUF) (v : Buf α) (t : Fin NPROC) (p : Pc) : Prop where
  buf : s'.buf = Function.update s.buf b v
  pc : s'.pc = Function.update s.pc t p
  before : ∀ c, c ≠ b → (s.pc t).about ≠ some c
  after : ∀ c, c ≠ b → p.about ≠ some c

namespace Moves

variable {s s' : St α} {b c : Fin NBUF} {v : Buf α} {t u : Fin NPROC} {pc : Pc}

theorem of_about (hbuf : s'.buf = Function.update s.buf b v) (hpc : s'.pc = Function.update s.pc t pc)
    (h1 : (s.pc t).about = none ∨ (s.pc t).about = some b) (h2 : pc.about = none ∨ pc.about = some b) :
    Moves s s' b v t pc := by
  refine ⟨hbuf, hpc, fun c hne => ?_, fun c hne => ?_⟩
  · rcases h1 with h1 | h1 <;> simp [h1, Ne.symm hne]
  · rcases h2 with h2 | h2 <;> simp [h2, Ne.symm hne]

theorem self (h : Moves s s' b v t pc) : s'.buf b = v := by rw [h.buf, Function.update_self]

theorem other (h : Moves s s' b v t pc) (hne : c ≠ b) : s'.buf c = s.buf c := by
  rw [h.buf, Function.update_of_ne hne]

theorem mover (h : Moves s s' b v t pc) : s'.pc t = pc := by rw [h.pc, Function.update_self]

theorem bystander (h : Moves s s' b v t pc) (hne : u ≠ t) : s'.pc u = s.pc u := by
  rw [h.pc, Function.update_of_ne hne]

theorem key (h : Moves s s' b v t pc) (hk : (v.dev, v.blockno) = s.key b) (c : Fin NBUF) : s'.key c = s.key c := by
  by_cases hcb : c = b
  · rw [hcb, St.key, h.self]
    exact hk
  · rw [St.key, St.key, h.other hcb]

theorem fresh (h : Moves s s' b v t pc) (hf : (v.valid = false ∧ v.refcnt = 0) ↔ s.Fresh b) (c : Fin NBUF) :
    s'.Fresh c ↔ s.Fresh c := by
  by_cases hcb : c = b
  · rw [hcb, St.Fresh, h.self]
    exact hf
  · rw [St.Fresh, St.Fresh, h.other hcb]

/-- A buffer with a reference is not fresh any more. -/
theorem fresh_used (h : Moves s s' b v t pc) (hv : v.refcnt ≠ 0) (c : Fin NBUF) : s'.Fresh c ↔ s.Fresh c ∧ c ≠ b := by
  by_cases hcb : c = b
  · subst hcb
    rw [St.Fresh, h.self]
    exact ⟨fun hf => absurd hf.2 hv, fun hf => absurd rfl hf.2⟩
  · rw [St.Fresh, St.Fresh, h.other hcb]
    exact ⟨fun hf => ⟨hf, hcb⟩, fun hf => hf.1⟩

end Moves

/-! ## References -/

/-- What a process that stands there relies on. -/
def Pc.Ok (s : St α) (t : Fin NPROC) : Pc → Prop
  | .idle => True
  | .wait b dev blockno => s.key b = (dev, blockno)
  | .locked b dev blockno => s.key b = (dev, blockno) ∧ (s.buf b).lock = some t
  | .reading b dev blockno => s.key b = (dev, blockno) ∧ (s.buf b).lock = some t ∧ (s.buf b).valid = false
  | .got b dev blockno => s.key b = (dev, blockno) ∧ (s.buf b).lock = some t ∧ (s.buf b).valid = true
  | .writing b => (s.buf b).lock = some t ∧ (s.buf b).valid = true
  | .releasing b => (s.buf b).valid = true

structure Refs (s : St α) : Prop where
  count : ∀ b, (s.buf b).refcnt.toNat = (if (s.buf b).lock.isSome then 1 else 0) + s.users b + s.pins b
  bound : ∀ b, s.pins b + NPROC + 1 < 2 ^ 32
  pc : ∀ t, (s.pc t).Ok s t
  /-- a buffer is locked with its contents there, or by a process that is getting them -/
  owner : ∀ b t, (s.buf b).lock = some t → (s.buf b).valid = true ∨ (s.pc t).loads = some b
  /-- somebody is getting the contents of a used buffer that has none -/
  load : ∀ b, (s.buf b).valid = false → (s.buf b).refcnt ≠ 0 →
    (s.buf b).lock.isSome ∨ ∃ t, (s.pc t).waitsFor = some b
  fresh : ∀ b, s.Fresh b → s.key b = (0, 0)

namespace Refs

variable {s s' : St α} {b : Fin NBUF} {t : Fin NPROC} {v : Buf α} {pc : Pc}

/-- A buffer without references is not locked, not pinned and in no call. -/
theorem unused (h : Refs s) (h0 : (s.buf b).refcnt = 0) :
    (s.buf b).lock = none ∧ s.pins b = 0 ∧ ∀ t, (s.pc t).refs b = 0 := by
  have hc := h.count b
  rw [h0] at hc
  have hz : (0 : UInt32).toNat = 0 := rfl
  refine ⟨?_, by omega, fun t => ?_⟩
  · cases hl : (s.buf b).lock with
    | none => rfl
    | some t =>
      rw [hl, Option.isSome_some, if_pos rfl] at hc
      omega
  · have := s.refs_le_users (b := b) t
    omega

theorem refcnt_ne_zero (h : Refs s) (hn : 0 < (if (s.buf b).lock.isSome then 1 else 0) + s.users b + s.pins b) :
    (s.buf b).refcnt ≠ 0 := by
  intro h0
  have hc := h.count b
  rw [h0] at hc
  have hz : (0 : UInt32).toNat = 0 := rfl
  omega

theorem update (h : Refs s) (hm : Moves s s' b v t pc)
    (hpins : ∀ c, c ≠ b → s'.pins c = s.pins c) (hbound : s'.pins b + NPROC + 1 < 2 ^ 32)
    (hcount : v.refcnt.toNat + (s.pc t).refs b = (if v.lock.isSome then 1 else 0) + (s.users b + pc.refs b) + s'.pins b)
    (hok : pc.Ok s' t) (hkey : (v.dev, v.blockno) = s.key b ∨ (s.buf b).refcnt = 0)
    (hlock : ∀ u, u ≠ t → (s.buf b).lock = some u → v.lock = some u ∧ v.valid = (s.buf b).valid)
    (hvalid : (s.buf b).valid = true → v.valid = true ∨ (s.buf b).refcnt = 0)
    (howner : ∀ u, v.lock = some u → v.valid = true ∨ (s'.pc u).loads = some b)
    (hload : v.valid = false → v.refcnt ≠ 0 → v.lock.isSome ∨ ∃ u, (s'.pc u).waitsFor = some b)
    (hfresh : v.valid = false → v.refcnt = 0 → (v.dev, v.blockno) = (0, 0)) : Refs s' := by
  have hb := hm.self
  have hc : ∀ c, c ≠ b → s'.buf c = s.buf c := fun c => hm.other
  have ht := hm.mover
  have hu : ∀ u, u ≠ t → s'.pc u = s.pc u := fun u => hm.bystander
  have husers := fun c => St.users_update (b := c) hm.pc
  refine ⟨fun c => ?_, fun c => ?_, fun u => ?_, fun c u hl => ?_, fun c hv hr => ?_, fun c hf => ?_⟩
  · by_cases hcb : c = b
    · subst hcb
      have := husers c
      rw [hb]
      omega
    · have := husers c
      rw [hc c hcb, h.count c, hpins c hcb]
      rw [(Pc.not_about (hm.before c hcb)).1, (Pc.not_about (hm.after c hcb)).1] at this
      omega
  · by_cases hcb : c = b
    · exact hcb ▸ hbound
    · rw [hpins c hcb]
      exact h.bound c
  · by_cases hut : u = t
    · subst hut
      rwa [ht]
    · rw [hu u hut]
      -- another process: its buffer may have changed, but it has a reference to it
      have hpcu := h.pc u
      have hk : ∀ c, (s.pc u).refs c ≠ 0 ∨ (s.buf c).lock = some u → s'.key c = s.key c := by
        intro c href
        by_cases hcb : c = b
        · subst hcb
          rw [St.key, hb]
          refine hkey.resolve_right fun h0 => ?_
          obtain ⟨hl, -, hz⟩ := h.unused h0
          rcases href with href | href
          · exact href (hz u)
          · rw [hl] at href
            cases href
        · rw [St.key, St.key, hc c hcb]
      have hl : ∀ c, (s.buf c).lock = some u → (s'.buf c).lock = some u ∧ (s'.buf c).valid = (s.buf c).valid := by
        intro c hlc
        by_cases hcb : c = b
        · subst hcb
          rw [hb]
          exact hlock u hut hlc
        · rw [hc c hcb]
          exact ⟨hlc, rfl⟩
      cases hp : s.pc u with
      | idle => trivial
      | wait c d k =>
        rw [hp] at hpcu
        exact (hk c (.inl (by simp [hp, Pc.refs, Pc.waitsFor, Pc.drops]))).trans hpcu
      | locked c d k =>
        rw [hp] at hpcu
        exact ⟨(hk c (.inr hpcu.2)).trans hpcu.1, (hl c hpcu.2).1⟩
      | reading c d k =>
        rw [hp] at hpcu
        obtain ⟨h1, h2, h3⟩ := hpcu
        exact ⟨(hk c (.inr h2)).trans h1, (hl c h2).1, (hl c h2).2.trans h3⟩
      | got c d k =>
        rw [hp] at hpcu
        obtain ⟨h1, h2, h3⟩ := hpcu
        exact ⟨(hk c (.inr h2)).trans h1, (hl c h2).1, (hl c h2).2.trans h3⟩
      | writing c =>
        rw [hp] at hpcu
        exact ⟨(hl c hpcu.1).1, (hl c hpcu.1).2.trans hpcu.2⟩
      | releasing c =>
        rw [hp] at hpcu
        have hpcu : (s.buf c).valid = true := hpcu
        change (s'.buf c).valid = true
        by_cases hcb : c = b
        · subst hcb
          rw [hb]
          refine (hvalid hpcu).resolve_right fun h0 => ?_
          have := (h.unused h0).2.2 u
          simp [hp, Pc.refs, Pc.waitsFor, Pc.drops] at this
        · rw [hc c hcb]
          exact hpcu
  · by_cases hcb : c = b
    · subst hcb
      rw [hb] at hl ⊢
      exact howner u hl
    · rw [hc c hcb] at hl ⊢
      refine (h.owner c u hl).imp_right fun hload => ?_
      by_cases hut : u = t
      · subst hut
        exact absurd hload (Pc.not_about (hm.before c hcb)).2.2
      · rwa [hu u hut]
  · by_cases hcb : c = b
    · subst hcb
      rw [hb] at hv hr ⊢
      exact hload hv hr
    · rw [hc c hcb] at hv hr ⊢
      refine (h.load c hv hr).imp_right fun ⟨u, hw⟩ => ⟨u, ?_⟩
      by_cases hut : u = t
      · subst hut
        exact absurd hw (Pc.not_about (hm.before c hcb)).2.1
      · rwa [hu u hut]
  · by_cases hcb : c = b
    · subst hcb
      rw [St.Fresh, hb] at hf
      rw [St.key, hb]
      exact hfresh hf.1 hf.2
    · rw [St.Fresh, hc c hcb] at hf
      rw [St.key, hc c hcb]
      exact h.fresh c hf

/-- As `update`, for a step that leaves the buffer's block, its lock and `valid` alone. -/
theorem touch (h : Refs s) (hm : Moves s s' b v t pc) (hk : (v.dev, v.blockno) = s.key b) (hl : v.lock = (s.buf b).lock)
    (hv : v.valid = (s.buf b).valid) (hpins : ∀ c, c ≠ b → s'.pins c = s.pins c) (hbound : s'.pins b + NPROC + 1 < 2 ^ 32)
    (hcount : v.refcnt.toNat + (s.pc t).refs b =
      (if (s.buf b).lock.isSome then 1 else 0) + (s.users b + pc.refs b) + s'.pins b)
    (hok : pc.Ok s' t) (hloads : (s.pc t).loads = some b → (s.buf b).valid = true ∨ pc.loads = some b)
    (hload : (s.buf b).valid = false → v.refcnt ≠ 0 → (s.buf b).lock.isSome ∨ ∃ u, (s'.pc u).waitsFor = some b)
    (hfresh : (s.buf b).valid = false → v.refcnt = 0 → s.key b = (0, 0)) : Refs s' := by
  refine h.update hm hpins hbound (hl ▸ hcount) hok (.inl hk) (fun u _ hlu => ⟨hl.trans hlu, hv⟩) (fun h => .inl (hv.trans h))
    (fun u hlu => ?_) (hl ▸ hv ▸ hload) (hk ▸ hv ▸ hfresh)
  rcases h.owner b u (hl ▸ hlu) with hvb | hload
  · exact .inl (hv.trans hvb)
  · rw [hv]
    by_cases hut : u = t
    · subst hut
      rw [hm.mover]
      exact hloads hload
    · rw [hm.bystander hut]
      exact .inr hload

end Refs

/-! ## The list -/

/-- The links are one circle through the buffers in this order, and every block but fresh ones is there once. -/
structure Listed (s : St α) (order : List (Fin NBUF)) : Prop where
  nodup : order.Nodup
  all : ∀ b, b ∈ order
  seg : Links.Seg s.links none (order.map some) none
  /-- bget's search meets a used buffer for block 0 of device 0 before any fresh one -/
  first : order.Pairwise fun a b => s.Fresh a → s.key b = (0, 0) → s.Fresh b
  once : ∀ a b, a ≠ b → s.key a = s.key b → s.Fresh a ∨ s.Fresh b

namespace Listed

variable {s s' : St α} {order : List (Fin NBUF)} {b : Fin NBUF} {dev blockno : UInt32}

theorem length_lt (h : Listed s order) : (order.map some).length < NBUF + 1 := by
  have := h.nodup.length_le_card
  rw [Fintype.card_fin] at this
  rw [List.length_map]
  omega

theorem cached_eq (h : Listed s order) (dev blockno : UInt32) :
    s.cached dev blockno = some ((order.find? fun b => (s.buf b).dev = dev ∧ (s.buf b).blockno = blockno).map some) := by
  rw [St.cached, h.seg.walk_next (by simp) h.length_lt, List.find?_map]
  rfl

theorem unused_eq (h : Listed s order) : s.unused = some ((order.reverse.find? fun b => (s.buf b).refcnt = 0).map some) := by
  rw [St.unused, h.seg.walk_prev (by simp) h.length_lt, ← List.map_reverse, List.find?_map]
  rfl

theorem congr (h : Listed s order) (hl : s'.links = s.links) (hk : ∀ c, s'.key c = s.key c)
    (hf : ∀ c, s'.Fresh c ↔ s.Fresh c) : Listed s' order := by
  refine ⟨h.nodup, h.all, hl ▸ h.seg, h.first.imp fun {a c} hac => ?_, fun a c hne => ?_⟩
  · rw [hf, hf, hk]
    exact hac
  · rw [hf, hf, hk, hk]
    exact h.once a c hne

/-- bget's first search succeeds: the buffer found is used from now on. -/
theorem hit (h : Listed s order) (hr : Refs s)
    (hb : order.find? (fun b => (s.buf b).dev = dev ∧ (s.buf b).blockno = blockno) = some b)
    (hl : s'.links = s.links) (hk : ∀ c, s'.key c = s.key c) (hf : ∀ c, s'.Fresh c ↔ s.Fresh c ∧ c ≠ b) :
    Listed s' order := by
  obtain ⟨hkey, as, bs, rfl, has⟩ := List.find?_eq_some_iff_append.mp hb
  have hkey : s.key b = (dev, blockno) := Prod.ext_iff.mpr (of_decide_eq_true hkey)
  -- no buffer before it has its key
  have has : ∀ a ∈ as, s.key a ≠ s.key b := fun a ha he => by
    have hn := has a ha
    rw [hkey] at he
    simp only [Bool.not_eq_true', decide_eq_false_iff_not] at hn
    exact hn (Prod.ext_iff.mp he)
  have hnd := h.nodup
  obtain ⟨h1, h2, h3⟩ := List.pairwise_append.mp h.first
  obtain ⟨h2, h4⟩ := List.pairwise_cons.mp h2
  simp only [List.nodup_append, List.nodup_cons, List.mem_cons] at hnd
  have keep : ∀ a c, c ≠ b → (s.Fresh a → s.key c = (0, 0) → s.Fresh c) → s'.Fresh a → s'.key c = (0, 0) → s'.Fresh c :=
    fun a c hne hac hfa hkc => (hf c).mpr ⟨hac ((hf a).mp hfa).1 (hk c ▸ hkc), hne⟩
  refine ⟨h.nodup, h.all, hl ▸ h.seg, List.pairwise_append.mpr ⟨?_, List.pairwise_cons.mpr ⟨?_, ?_⟩, ?_⟩, ?_⟩
  · exact h1.imp_of_mem fun {a c} _ hc => keep a c (hnd.2.2 c hc b (.inl rfl))
  · exact fun c _ hfb => absurd rfl ((hf b).mp hfb).2
  · refine h4.imp_of_mem fun {a c} _ hc => keep a c ?_
    rintro rfl
    exact hnd.2.1.1 hc
  · intro a ha c hc
    by_cases hcb : c = b
    · subst hcb
      intro hfa hkc
      refine absurd ?_ (has a ha)
      rw [hr.fresh a ((hf a).mp hfa).1, ← hk, hkc]
    · exact keep a c hcb (h3 a ha c hc)
  · -- the buffers with its key that come after it are fresh if it was
    have after : ∀ c, c ≠ b → s.key c = s.key b → s.Fresh b → s.Fresh c := by
      intro c hne hkc hfb
      have hmem := h.all c
      simp only [List.mem_append, List.mem_cons] at hmem
      rcases hmem with hc | hc | hc
      · exact absurd hkc (has c hc)
      · exact absurd hc hne
      · exact h2 c hc hfb (hkc.trans (hr.fresh b hfb))
    intro a c hne hkac
    rw [hk, hk] at hkac
    rw [hf, hf]
    rcases h.once a c hne hkac with hfa | hfc
    · by_cases hab : a = b
      · subst hab
        exact .inr ⟨after c (Ne.symm hne) hkac.symm hfa, Ne.symm hne⟩
      · exact .inl ⟨hfa, hab⟩
    · by_cases hcb : c = b
      · subst hcb
        exact .inl ⟨after a hne hkac hfc, hne⟩
      · exact .inr ⟨hfc, hcb⟩

/-- bget recycles a buffer, for a block that has none. -/
theorem recycle (h : Listed s order) (hr : Refs s) (hnone : ∀ c, s.key c ≠ (dev, blockno))
    (hl : s'.links = s.links) (hb : s'.key b = (dev, blockno)) (hk : ∀ c, c ≠ b → s'.key c = s.key c)
    (hf : ∀ c, s'.Fresh c ↔ s.Fresh c ∧ c ≠ b) : Listed s' order := by
  refine ⟨h.nodup, h.all, hl ▸ h.seg, h.first.imp fun {a c} hac hfa hkc => ?_, fun a c hne hkac => ?_⟩
  · obtain ⟨hfa, -⟩ := (hf a).mp hfa
    by_cases hcb : c = b
    · subst hcb
      refine absurd ?_ (hnone a)
      rw [hr.fresh a hfa, ← hkc, hb]
    · rw [hk c hcb] at hkc
      exact (hf c).mpr ⟨hac hfa hkc, hcb⟩
  · by_cases hab : a = b
    · subst hab
      rw [hb, hk c (Ne.symm hne)] at hkac
      exact absurd hkac.symm (hnone c)
    by_cases hcb : c = b
    · subst hcb
      rw [hb, hk a hab] at hkac
      exact absurd hkac (hnone a)
    rw [hk a hab, hk c hcb] at hkac
    rw [hf, hf]
    exact (h.once a c hne hkac).imp (⟨·, hab⟩) (⟨·, hcb⟩)

/-- brelse moves a used buffer to the front. -/
theorem move (h : Listed s order) (hb : ¬ s.Fresh b) (hl : s'.links = (s.links.unlink (some b)).insertAfter none (some b))
    (hk : ∀ c, s'.key c = s.key c) (hf : ∀ c, s'.Fresh c ↔ s.Fresh c) : ∃ order', Listed s' order' := by
  obtain ⟨xs, ys, rfl⟩ := List.append_of_mem (h.all b)
  have hnd := h.nodup
  have hperm : (xs ++ b :: ys).Perm (b :: (xs ++ ys)) := List.perm_middle
  have hnd' : (b :: (xs ++ ys)).Nodup := hperm.nodup_iff.mp hnd
  have hsub : (xs ++ ys).Sublist (xs ++ b :: ys) := List.Sublist.append_left (List.sublist_cons_self b ys) xs
  have same : ∀ a c, (s.Fresh a → s.key c = (0, 0) → s.Fresh c) → s'.Fresh a → s'.key c = (0, 0) → s'.Fresh c := by
    intro a c hac
    rw [hf, hf, hk]
    exact hac
  refine ⟨b :: (xs ++ ys), hnd', fun c => hperm.mem_iff.mp (h.all c), ?_, List.pairwise_cons.mpr ⟨?_, ?_⟩, fun a c hne => ?_⟩
  · have hseg := h.seg
    rw [List.map_append, List.map_cons] at hseg
    have hnone : none ∉ (xs ++ b :: ys).map some := by simp
    have hinj : Function.Injective (some : Fin NBUF → Node) := Option.some_injective _
    have hun := hseg.unlink (by rw [← List.map_cons, ← List.map_append, List.nodup_cons]; exact ⟨hnone, hnd.map hinj⟩)
    rw [← List.map_append] at hun
    rw [hl, List.map_cons]
    refine hun.insertAfter ?_
    rw [List.nodup_cons] at hnd' ⊢
    refine ⟨?_, List.nodup_cons.mpr ⟨by simp, hnd'.2.map hinj⟩⟩
    simpa using hnd'.1
  · exact fun c _ hfb => absurd ((hf b).mp hfb) hb
  · exact (h.first.sublist hsub).imp fun {a c} => same a c
  · rw [hf, hf, hk, hk]
    exact h.once a c hne

end Listed

/-- binit links all the buffers. -/
theorem binit_seg : ∃ order : List (Fin NBUF), order.Nodup ∧ (∀ b, b ∈ order) ∧
    Links.Seg binit none (order.map some) none := by
  have build : ∀ (bs order : List (Fin NBUF)) (l : Links Node), (bs.reverse ++ order).Nodup →
      Links.Seg l none (order.map some) none →
      Links.Seg (bs.foldl (fun l b => l.insertAfter none (some b)) l) none ((bs.reverse ++ order).map some) none := by
    intro bs
    induction bs with
    | nil => exact fun order l _ hs => hs
    | cons b bs ih =>
      intro order l hnd hs
      rw [List.reverse_cons, List.append_assoc, List.singleton_append] at hnd ⊢
      refine ih (b :: order) _ hnd ?_
      have hb := (List.nodup_append.mp hnd).2.1
      refine hs.insertAfter ?_
      rw [List.nodup_cons] at hb ⊢
      refine ⟨by simpa using hb.1, List.nodup_cons.mpr ⟨by simp, hb.2.map (Option.some_injective _)⟩⟩
  have hnd : (List.finRange NBUF).reverse.Nodup := List.nodup_reverse.mpr (List.nodup_finRange _)
  refine ⟨(List.finRange NBUF).reverse, hnd, fun b => by simp, ?_⟩
  have := build (List.finRange NBUF) [] ⟨fun _ => none, fun _ => none⟩ (by simpa using hnd) ⟨rfl, rfl⟩
  rwa [List.append_nil] at this

/-! ## Contents -/

theorem put_self (m : UInt32 → UInt32 → α) (d k : UInt32) (v : α) : put m d k v d k = v := by simp [put]

theorem put_of_ne {m : UInt32 → UInt32 → α} {d k d' k' : UInt32} {v : α} (h : (d', k') ≠ (d, k)) :
    put m d k v d' k' = m d' k' := by
  by_cases hd : d' = d
  · subst hd
    have hk : k' ≠ k := fun hk => h (by rw [hk])
    simp [put, hk]
  · simp [put, hd]

/-- The buffer's data is on the disk. -/
def St.Written (s : St α) (b : Fin NBUF) : Prop := (s.buf b).data = s.disk (s.buf b).dev (s.buf b).blockno

/-- A valid buffer has what was stored last, and so has the disk if no buffer is valid for the block; a buffer that
nobody holds and nothing pins agrees with the disk. -/
structure Contents (s : St α) : Prop where
  cache : ∀ b, (s.buf b).valid = true → (s.buf b).data = s.stored (s.buf b).dev (s.buf b).blockno
  disk : ∀ d k, (∀ b, (s.buf b).valid = true → s.key b ≠ (d, k)) → s.disk d k = s.stored d k
  clean : ∀ b, (s.buf b).valid = true → (s.buf b).lock = none → s.pins b = 0 → s.Written b

namespace Contents

variable {s s' : St α} {order : List (Fin NBUF)} {b : Fin NBUF} {v : Buf α} {t : Fin NPROC} {pc : Pc}

/-- A step that touches no contents, and lets go of the buffer only if that is written. -/
theorem moves (h : Contents s) (hm : Moves s s' b v t pc) (hd : s'.disk = s.disk)
    (hst : s'.stored = s.stored) (hv : v.valid = (s.buf b).valid) (hk : (v.dev, v.blockno) = s.key b)
    (hdata : v.data = (s.buf b).data) (hp : ∀ c, c ≠ b → s'.pins c = s.pins c)
    (hf : v.lock = none → s'.pins b = 0 → (s.buf b).lock = none ∧ s.pins b = 0 ∨ s.Written b) : Contents s' := by
  have same : ∀ c, (s'.buf c).valid = (s.buf c).valid ∧ (s'.buf c).data = (s.buf c).data := fun c => by
    by_cases hcb : c = b
    · rw [hcb, hm.self]
      exact ⟨hv, hdata⟩
    · rw [hm.other hcb]
      exact ⟨rfl, rfl⟩
  have hdev : ∀ c, (s'.buf c).dev = (s.buf c).dev := fun c => congrArg Prod.fst (hm.key hk c)
  have hblk : ∀ c, (s'.buf c).blockno = (s.buf c).blockno := fun c => congrArg Prod.snd (hm.key hk c)
  refine ⟨fun c hvc => ?_, fun d k hn => ?_, fun c hvc hlc hpc => ?_⟩
  · rw [(same c).2, hst, hdev, hblk]
    exact h.cache c ((same c).1 ▸ hvc)
  · rw [hd, hst]
    refine h.disk d k fun c hvc => ?_
    rw [← hm.key hk c]
    exact hn c ((same c).1.trans hvc)
  · rw [St.Written, (same c).2, hd, hdev, hblk]
    rw [(same c).1] at hvc
    by_cases hcb : c = b
    · subst hcb
      rw [hm.self] at hlc
      rcases hf hlc hpc with ⟨hl, hp⟩ | hw
      · exact h.clean c hvc hl hp
      · exact hw
    · rw [hm.other hcb] at hlc
      exact h.clean c hvc hlc (hp c hcb ▸ hpc)

/-- No other valid buffer has the block of a used one. -/
theorem only (hlist : Listed s order) (hb : ¬ s.Fresh b) {c : Fin NBUF}
    (hv : (s.buf c).valid = true) (hk : s.key c = s.key b) : c = b := by
  by_contra hne
  rcases hlist.once c b hne hk with hf | hf
  · rw [St.Fresh, hv] at hf
    cases hf.1
  · exact hb hf

theorem not_fresh (hv : (s.buf b).valid = true) : ¬ s.Fresh b := fun hf => by
  rw [St.Fresh, hv] at hf
  cases hf.1

/-- The holder changes the data. -/
theorem change (h : Contents s) (hlist : Listed s order) {x : α} (hm : Moves s s' b { s.buf b with data := x } t pc)
    (hv : (s.buf b).valid = true) (hl : (s.buf b).lock = some t) (hd : s'.disk = s.disk) (hp : s'.pins = s.pins)
    (hst : s'.stored = put s.stored (s.buf b).dev (s.buf b).blockno x) : Contents s' := by
  have hk : ∀ c, s'.key c = s.key c := hm.key rfl
  refine ⟨fun c hvc => ?_, fun d k hn => ?_, fun c hvc hlc hpc => ?_⟩
  · by_cases hcb : c = b
    · subst hcb
      rw [hm.self, hst]
      exact (put_self _ _ _ _).symm
    · rw [hm.other hcb] at hvc ⊢
      rw [hst, put_of_ne fun hk => hcb (only hlist (not_fresh hv) hvc hk)]
      exact h.cache c hvc
  · have hvalid : ∀ c, (s'.buf c).valid = (s.buf c).valid := fun c => by
      by_cases hcb : c = b
      · rw [hcb, hm.self]
      · rw [hm.other hcb]
    have hn' : ∀ c, (s.buf c).valid = true → s.key c ≠ (d, k) := fun c hvc => hk c ▸ hn c (hvalid c ▸ hvc)
    rw [hd, hst, put_of_ne (Ne.symm (hn' b hv))]
    exact h.disk d k hn'
  · by_cases hcb : c = b
    · subst hcb
      rw [hm.self] at hlc
      exact absurd (hl.symm.trans hlc) (by simp)
    · rw [hm.other hcb] at hvc hlc
      rw [St.Written, hm.other hcb, hd]
      exact h.clean c hvc hlc (hp ▸ hpc)

/-- bwrite's transfer. -/
theorem write (h : Contents s) (hlist : Listed s order) (hv : (s.buf b).valid = true) (hbuf : s'.buf = s.buf)
    (hd : s'.disk = put s.disk (s.buf b).dev (s.buf b).blockno (s.buf b).data) (hp : s'.pins = s.pins)
    (hst : s'.stored = s.stored) : Contents s' := by
  have hk : ∀ c, s'.key c = s.key c := fun c => by rw [St.key, St.key, hbuf]
  refine ⟨fun c => by rw [hbuf, hst]; exact h.cache c, fun d k hn => ?_, fun c hvc hlc hpc => ?_⟩
  · have hn' : ∀ c, (s.buf c).valid = true → s.key c ≠ (d, k) := fun c hvc => hk c ▸ hn c (hbuf ▸ hvc)
    rw [hd, hst, put_of_ne (Ne.symm (hn' b hv))]
    exact h.disk d k hn'
  · rw [hbuf] at hvc hlc
    rw [St.Written, hbuf, hd]
    by_cases hcb : c = b
    · subst hcb
      exact (put_self _ _ _ _).symm
    · rw [put_of_ne fun hk => hcb (only hlist (not_fresh hv) hvc hk)]
      exact h.clean c hvc hlc (hp ▸ hpc)

/-- bread's transfer. -/
theorem read (h : Contents s) (hlist : Listed s order) (hfr : ¬ s.Fresh b) (hv : (s.buf b).valid = false)
    (hm : Moves s s' b { s.buf b with data := s.disk (s.buf b).dev (s.buf b).blockno, valid := true } t pc)
    (hd : s'.disk = s.disk) (hp : s'.pins = s.pins) (hst : s'.stored = s.stored) : Contents s' := by
  refine ⟨fun c hvc => ?_, fun d k hn => ?_, fun c hvc hlc hpc => ?_⟩
  · by_cases hcb : c = b
    · subst hcb
      rw [hm.self, hst]
      refine h.disk _ _ fun a hva hka => ?_
      have hac : a = c := only hlist hfr hva hka
      rw [hac, hv] at hva
      cases hva
    · rw [hm.other hcb] at hvc ⊢
      rw [hst]
      exact h.cache c hvc
  · rw [hd, hst]
    refine h.disk d k fun c hvc => hm.key rfl c ▸ hn c ?_
    by_cases hcb : c = b
    · rw [hcb, hm.self]
    · rwa [hm.other hcb]
  · by_cases hcb : c = b
    · subst hcb
      rw [St.Written, hm.self, hd]
    · rw [hm.other hcb] at hvc hlc
      rw [St.Written, hm.other hcb, hd]
      exact h.clean c hvc hlc (hp ▸ hpc)

/-- bget recycles a buffer that nobody uses. -/
theorem recycle (h : Contents s) (hm : Moves s s' b v t pc) (hl : (s.buf b).lock = none) (hpb : s.pins b = 0)
    (hvb : v.valid = false) (hd : s'.disk = s.disk) (hp : s'.pins = s.pins) (hst : s'.stored = s.stored) :
    Contents s' := by
  have hc : ∀ c, (s'.buf c).valid = true → c ≠ b := fun c hvc hcb => by
    rw [hcb, hm.self, hvb] at hvc
    cases hvc
  refine ⟨fun c hvc => ?_, fun d k hn => ?_, fun c hvc hlc hpc => ?_⟩
  · have hcb := hc c hvc
    rw [hm.other hcb] at hvc ⊢
    rw [hst]
    exact h.cache c hvc
  · rw [hd, hst]
    by_cases hbk : (s.buf b).valid = true ∧ s.key b = (d, k)
    · -- the block that loses its buffer: that one was clean
      obtain ⟨hv, hkey⟩ := hbk
      obtain ⟨rfl, rfl⟩ : (s.buf b).dev = d ∧ (s.buf b).blockno = k := Prod.ext_iff.mp hkey
      rw [← h.clean b hv hl hpb, h.cache b hv]
    · refine h.disk d k fun c hvc hkc => ?_
      have hne : c ≠ b := fun hcb => hbk (hcb ▸ ⟨hvc, hkc⟩)
      refine hn c (by rw [hm.other hne]; exact hvc) ?_
      rw [St.key, hm.other hne]
      exact hkc
  · have hcb := hc c hvc
    rw [hm.other hcb] at hvc hlc
    rw [St.Written, hm.other hcb, hd]
    exact h.clean c hvc hlc (hp ▸ hpc)

end Contents

/-! ## Clients -/

/-- How clients use the cache. A process changes a buffer only while it holds it, and releases it written or pinned;
a pin is taken on a buffer that some bread has returned, and given back once, the last one of a buffer that nobody holds
only after it is written. No buffer has four billion pins. -/
def Client (s : St α) : Label α → Prop
  | .change t b _ => (s.buf b).lock = some t
  | .brelse _ b => s.Written b ∨ 0 < s.pins b
  | .bpin _ b => ¬ s.Fresh b ∧ s.pins b + NPROC + 2 < 2 ^ 32
  | .bunpin _ b => 0 < s.pins b ∧ (s.Written b ∨ (s.buf b).lock ≠ none ∨ 1 < s.pins b)
  | .bread _ _ _ | .bwrite _ _ | .run _ => True

structure Inv (s : St α) : Prop where
  refs : Refs s
  list : ∃ order, Listed s order
  contents : Contents s

section Steps

variable {s s' : St α} {b : Fin NBUF} {t : Fin NPROC} {dev blockno : UInt32}

theorem Refs.not_fresh (h : Refs s) (hn : 0 < (if (s.buf b).lock.isSome then 1 else 0) + s.users b + s.pins b) :
    ¬ s.Fresh b := fun hf => h.refcnt_ne_zero hn hf.2

/-- A process that holds a buffer and is in no call has its contents. -/
theorem Refs.holder_valid (h : Refs s) (ht : s.pc t = .idle) (hl : (s.buf b).lock = some t) : (s.buf b).valid = true :=
  (h.owner b t hl).resolve_right (by rw [ht]; exact fun h => by cases h)

theorem toNat_add_one {x : UInt32} (h : x.toNat + 1 < 2 ^ 32) : (x + 1).toNat = x.toNat + 1 := by
  rw [UInt32.toNat_add, UInt32.toNat_one, Nat.mod_eq_of_lt h]

theorem toNat_sub_one {x : UInt32} (h : x ≠ 0) : (x - 1).toNat + 1 = x.toNat := by
  have hx : x.toNat ≠ 0 := fun h0 => h (UInt32.toNat_inj.mp h0)
  rw [UInt32.toNat_sub_of_le _ _ (UInt32.le_iff_toNat_le.mpr (by rw [UInt32.toNat_one]; omega)), UInt32.toNat_one]
  omega

theorem bget_hit {order : List (Fin NBUF)} (h : Inv s) (hlist : Listed s order) (ht : s.pc t = .idle)
    (hb : order.find? (fun b => (s.buf b).dev = dev ∧ (s.buf b).blockno = blockno) = some b) :
    Inv ((s.setBuf b { s.buf b with refcnt := (s.buf b).refcnt + 1 }).goto t (.wait b dev blockno)) := by
  have hkey : s.key b = (dev, blockno) := by simpa [St.key] using List.find?_some hb
  generalize hs : (s.setBuf b { s.buf b with refcnt := (s.buf b).refcnt + 1 }).goto t (.wait b dev blockno) = s'
  have hm : Moves s s' b { s.buf b with refcnt := (s.buf b).refcnt + 1 } t (.wait b dev blockno) := by
    subst hs
    exact .of_about rfl rfl (.inl (by rw [ht]; rfl)) (.inr rfl)
  -- the count does not wrap: this process had no reference
  have hr0 : (s.pc t).refs b = 0 := by rw [ht]; rfl
  have hr1 : (Pc.wait b dev blockno).refs b = 1 := by simp [Pc.refs, Pc.waitsFor, Pc.drops]
  have hone : ((s.buf b).refcnt + 1).toNat = (s.buf b).refcnt.toNat + 1 := by
    refine toNat_add_one ?_
    have h1 := St.users_update (b := b) hm.pc
    have h2 := s'.users_le b
    have h3 := h.refs.count b
    have h4 := h.refs.bound b
    rw [hr0, hr1] at h1
    split at h3 <;> omega
  have hne0 : (s.buf b).refcnt + 1 ≠ 0 := fun h0 => by
    rw [h0] at hone
    cases hone
  have hpins : s'.pins = s.pins := by rw [← hs]; rfl
  refine ⟨?_, ⟨order, hlist.hit h.refs hb (by rw [← hs]; rfl) (hm.key rfl) (hm.fresh_used hne0)⟩, ?_⟩
  · refine h.refs.touch hm rfl rfl rfl (fun c _ => by rw [hpins]) (hpins ▸ h.refs.bound b) ?_ ((hm.key rfl b).trans hkey) ?_ ?_ ?_
    · have := h.refs.count b
      rw [hone, hr0, hr1, hpins]
      omega
    · rw [ht]
      exact fun h => by cases h
    · exact fun _ _ => .inr ⟨t, by rw [hm.mover]; rfl⟩
    · exact fun _ h0 => absurd h0 hne0
  · exact h.contents.moves hm (by rw [← hs]; rfl) (by rw [← hs]; rfl) rfl rfl rfl (fun c _ => by rw [hpins])
      fun hl hp => .inl ⟨hl, hpins ▸ hp⟩

theorem bget_recycle {order : List (Fin NBUF)} (h : Inv s) (hlist : Listed s order) (ht : s.pc t = .idle)
    (hnone : ∀ c, s.key c ≠ (dev, blockno)) (h0 : (s.buf b).refcnt = 0) :
    Inv ((s.setBuf b { s.buf b with dev := dev, blockno := blockno, valid := false, refcnt := 1 }).goto t
      (.wait b dev blockno)) := by
  obtain ⟨hl, hpb, hrefs⟩ := h.refs.unused h0
  generalize hs : (s.setBuf b { s.buf b with dev := dev, blockno := blockno, valid := false, refcnt := 1 }).goto t
    (.wait b dev blockno) = s'
  have hm : Moves s s' b { s.buf b with dev := dev, blockno := blockno, valid := false, refcnt := 1 } t
      (.wait b dev blockno) := by
    subst hs
    exact .of_about rfl rfl (.inl (by rw [ht]; rfl)) (.inr rfl)
  have hpins : s'.pins = s.pins := by rw [← hs]; rfl
  have hkb : s'.key b = (dev, blockno) := by rw [St.key, hm.self]
  have hne0 : (1 : UInt32) ≠ 0 := by decide
  refine ⟨?_, ⟨order, hlist.recycle h.refs hnone (by rw [← hs]; rfl) hkb ?_ (hm.fresh_used hne0)⟩, ?_⟩
  · have hr1 : (Pc.wait b dev blockno).refs b = 1 := by simp [Pc.refs, Pc.waitsFor, Pc.drops]
    refine h.refs.update hm (fun c _ => by rw [hpins]) (hpins ▸ h.refs.bound b) ?_ hkb (.inr h0) ?_ (fun _ => .inr h0) ?_ ?_ ?_
    · have hc := h.refs.count b
      rw [h0, hl, Option.isSome_none, if_neg (by simp)] at hc
      have hz : (0 : UInt32).toNat = 0 := rfl
      have hone : (1 : UInt32).toNat = 1 := rfl
      rw [hrefs t, hr1, hpins, hone, hl, Option.isSome_none, if_neg (by simp)]
      omega
    · intro u _ hlu
      rw [hl] at hlu
      cases hlu
    · intro u hlu
      exact absurd (hl.symm.trans hlu) (by simp)
    · exact fun _ _ => .inr ⟨t, by rw [hm.mover]; rfl⟩
    · exact fun _ hz => absurd hz hne0
  · intro c hcb
    rw [St.key, St.key, hm.other hcb]
  · exact h.contents.recycle hm hl hpb rfl (by rw [← hs]; rfl) hpins (by rw [← hs]; rfl)

/-- bget's searches come back to the head; it fails only if every buffer is in use. -/
theorem bget_cases (h : Inv s) (ht : s.pc t = .idle) (dev blockno : UInt32) : s.bget t dev blockno = .panic "bget: no buffers" ∨
    ∃ s', s.bget t dev blockno = .ok s' ∧ Inv s' := by
  obtain ⟨order, hlist⟩ := h.list
  unfold St.bget
  rw [hlist.cached_eq, hlist.unused_eq]
  cases hb : order.find? fun b => (s.buf b).dev = dev ∧ (s.buf b).blockno = blockno with
  | some b => exact .inr ⟨_, rfl, bget_hit h hlist ht hb⟩
  | none =>
    cases hb' : order.reverse.find? fun b => (s.buf b).refcnt = 0 with
    | none => exact .inl rfl
    | some b =>
      refine .inr ⟨_, rfl, bget_recycle h hlist ht (fun c hk => ?_) (by simpa using List.find?_some hb')⟩
      have := List.find?_eq_none.mp hb c (hlist.all c)
      simp only [decide_eq_true_eq] at this
      exact this (Prod.ext_iff.mp hk)

/-- A step that only moves the process. -/
theorem Inv.goto (h : Inv s) {pc : Pc} (hm : Moves s (s.goto t pc) b (s.buf b) t pc)
    (hrefs : (s.pc t).refs b = pc.refs b) (hok : pc.Ok (s.goto t pc) t) (hw : (s.pc t).waitsFor ≠ some b)
    (hloads : (s.pc t).loads = some b → (s.buf b).valid = true ∨ pc.loads = some b) : Inv (s.goto t pc) := by
  obtain ⟨order, hlist⟩ := h.list
  refine ⟨?_, ⟨order, hlist.congr rfl (hm.key rfl) (hm.fresh Iff.rfl)⟩, ?_⟩
  · refine h.refs.touch hm rfl rfl rfl (fun _ _ => rfl) (h.refs.bound b) ?_ hok hloads ?_ fun hv h0 => h.refs.fresh b ⟨hv, h0⟩
    · have := h.refs.count b
      rw [hrefs]
      change _ = _ + s.pins b
      omega
    · intro hv hr
      refine (h.refs.load b hv hr).imp_right fun ⟨u, hu⟩ => ⟨u, ?_⟩
      rwa [hm.bystander fun hut => hw (hut ▸ hu)]
  · exact h.contents.moves hm rfl rfl rfl rfl rfl (fun _ _ => rfl) fun hl hp => .inl ⟨hl, hp⟩

theorem Inv.goto_about (h : Inv s) {pc : Pc} (hfrom : (s.pc t).about = none ∨ (s.pc t).about = some b)
    (hto : pc.about = none ∨ pc.about = some b) (hrefs : (s.pc t).refs b = pc.refs b) (hok : pc.Ok (s.goto t pc) t)
    (hw : (s.pc t).waitsFor ≠ some b)
    (hloads : (s.pc t).loads = some b → (s.buf b).valid = true ∨ pc.loads = some b) : Inv (s.goto t pc) :=
  h.goto (.of_about (by simp [St.goto]) rfl hfrom hto) hrefs hok hw hloads

/-- acquiresleep gets the lock. -/
theorem acquiresleep_inv (h : Inv s) (ht : s.pc t = .wait b dev blockno) (hl : (s.buf b).lock = none) :
    Inv ((s.setBuf b { s.buf b with lock := some t }).goto t (.locked b dev blockno)) := by
  have hok := h.refs.pc t
  rw [ht] at hok
  obtain ⟨order, hlist⟩ := h.list
  generalize hs : (s.setBuf b { s.buf b with lock := some t }).goto t (.locked b dev blockno) = s'
  have hm : Moves s s' b { s.buf b with lock := some t } t (.locked b dev blockno) := by
    subst hs
    exact .of_about rfl rfl (.inr (by rw [ht]; rfl)) (.inr rfl)
  have hpins : s'.pins = s.pins := by rw [← hs]; rfl
  have hr1 : (s.pc t).refs b = 1 := by simp [ht, Pc.refs, Pc.waitsFor, Pc.drops]
  refine ⟨?_, ⟨order, hlist.congr (by rw [← hs]; rfl) (hm.key rfl) (hm.fresh Iff.rfl)⟩, ?_⟩
  · refine h.refs.update hm (fun c _ => by rw [hpins]) (hpins ▸ h.refs.bound b) ?_
      ⟨(hm.key rfl b).trans hok, by rw [hm.self]⟩ (.inl rfl) ?_ .inl ?_ (fun _ _ => .inl rfl) fun hv h0 => h.refs.fresh b ⟨hv, h0⟩
    · have hc := h.refs.count b
      have hr0 : (Pc.locked b dev blockno).refs b = 0 := rfl
      rw [hl, Option.isSome_none, if_neg (by simp)] at hc
      rw [hr1, hr0, hpins, Option.isSome_some, if_pos rfl]
      change (s.buf b).refcnt.toNat + 1 = _
      omega
    · intro u _ hlu
      rw [hl] at hlu
      cases hlu
    · intro u hlu
      cases hlu
      exact .inr (by rw [hm.mover]; rfl)
  · exact h.contents.moves hm (by rw [← hs]; rfl) (by rw [← hs]; rfl) rfl rfl rfl (fun c _ => by rw [hpins])
      fun hn => by cases hn

/-- The contents arrive from the disk. -/
theorem read_inv (h : Inv s) (ht : s.pc t = .reading b dev blockno) :
    Inv ((s.setBuf b { s.buf b with data := s.disk (s.buf b).dev (s.buf b).blockno, valid := true }).goto t
      (.got b dev blockno)) := by
  have hok := h.refs.pc t
  rw [ht] at hok
  obtain ⟨hk, hl, hv⟩ := hok
  obtain ⟨order, hlist⟩ := h.list
  generalize hs : (s.setBuf b { s.buf b with data := s.disk (s.buf b).dev (s.buf b).blockno, valid := true }).goto t
    (.got b dev blockno) = s'
  have hm : Moves s s' b { s.buf b with data := s.disk (s.buf b).dev (s.buf b).blockno, valid := true } t
      (.got b dev blockno) := by
    subst hs
    exact .of_about rfl rfl (.inr (by rw [ht]; rfl)) (.inr rfl)
  have hpins : s'.pins = s.pins := by rw [← hs]; rfl
  have hfr : ¬ s.Fresh b := h.refs.not_fresh (by rw [hl, Option.isSome_some, if_pos rfl]; omega)
  refine ⟨?_, ⟨order, hlist.congr (by rw [← hs]; rfl) (hm.key rfl) (hm.fresh ?_)⟩, ?_⟩
  · refine h.refs.update hm (fun c _ => by rw [hpins]) (hpins ▸ h.refs.bound b) ?_
      ⟨(hm.key rfl b).trans hk, by rw [hm.self]; exact hl, by rw [hm.self]⟩ (.inl rfl) ?_ (fun _ => .inl rfl) (fun _ _ => .inl rfl)
      (fun hf => by cases hf) fun hf => by cases hf
    · have hc := h.refs.count b
      have hr0 : (s.pc t).refs b = 0 := by rw [ht]; rfl
      have hr0' : (Pc.got b dev blockno).refs b = 0 := rfl
      rw [hr0, hr0', hpins, Nat.add_zero, Nat.add_zero]
      exact hc
    · intro u hut hlu
      rw [hl, Option.some.injEq] at hlu
      exact absurd hlu.symm hut
  · exact ⟨fun hf => absurd hf.1 (by simp), fun hf => absurd hf hfr⟩
  · exact h.contents.read hlist hfr hv hm (by rw [← hs]; rfl) hpins (by rw [← hs]; rfl)

/-- The end of bwrite. -/
theorem write_inv (h : Inv s) (ht : s.pc t = .writing b) :
    Inv ({ s with disk := put s.disk (s.buf b).dev (s.buf b).blockno (s.buf b).data }.goto t .idle) := by
  have hok := h.refs.pc t
  rw [ht] at hok
  have hg : Inv (s.goto t .idle) := h.goto_about (b := b) (.inr (by rw [ht]; rfl)) (.inl rfl) (by rw [ht]; rfl) trivial
    (by rw [ht]; exact fun h => by cases h) (by rw [ht]; exact fun h => by cases h)
  obtain ⟨order, hlist⟩ := hg.list
  -- nothing but the disk differs from the state without the transfer
  refine ⟨⟨hg.refs.count, hg.refs.bound, fun u => ?_, hg.refs.owner, hg.refs.load, hg.refs.fresh⟩, ⟨order, hlist.congr rfl
    (fun _ => rfl) fun _ => Iff.rfl⟩, hg.contents.write hlist (b := b) hok.2 rfl rfl rfl rfl⟩
  have hpc := hg.refs.pc u
  change ((s.goto t .idle).pc u).Ok _ u
  cases hp : (s.goto t .idle).pc u <;> rw [hp] at hpc <;> exact hpc

/-- The end of brelse. -/
theorem unref_inv (h : Inv s) (ht : s.pc t = .releasing b) : Inv ((s.unref b).goto t .idle) := by
  have hok := h.refs.pc t
  rw [ht] at hok
  have hv : (s.buf b).valid = true := hok
  have hfr := Contents.not_fresh hv
  obtain ⟨order, hlist⟩ := h.list
  have hr1 : (s.pc t).refs b = 1 := by simp [ht, Pc.refs, Pc.waitsFor, Pc.drops]
  have hne : (s.buf b).refcnt ≠ 0 := h.refs.refcnt_ne_zero (by have := s.refs_le_users (b := b) t; omega)
  have hfields : ((s.unref b).goto t .idle).buf = Function.update s.buf b { s.buf b with refcnt := (s.buf b).refcnt - 1 } ∧
      ((s.unref b).goto t .idle).pc = Function.update s.pc t .idle ∧ ((s.unref b).goto t .idle).pins = s.pins ∧
      ((s.unref b).goto t .idle).disk = s.disk ∧ ((s.unref b).goto t .idle).stored = s.stored ∧
      ((s.unref b).goto t .idle).links = if (s.buf b).refcnt - 1 = 0 then
        (s.links.unlink (some b)).insertAfter none (some b) else s.links := by
    unfold St.unref
    dsimp only
    split
    · exact ⟨rfl, rfl, rfl, rfl, rfl, rfl⟩
    · exact ⟨rfl, rfl, rfl, rfl, rfl, rfl⟩
  obtain ⟨hbuf, hpc, hpins, hd, hst, hlinks⟩ := hfields
  generalize (s.unref b).goto t .idle = s' at *
  have hm : Moves s s' b { s.buf b with refcnt := (s.buf b).refcnt - 1 } t .idle :=
    .of_about hbuf hpc (.inr (by rw [ht]; rfl)) (.inl rfl)
  have hfresh := hm.fresh ⟨fun hf => absurd (hv.symm.trans hf.1) (by simp), fun hf => absurd hf hfr⟩
  refine ⟨?_, ?_, ?_⟩
  · refine h.refs.touch hm rfl rfl rfl (fun c _ => by rw [hpins]) (hpins ▸ h.refs.bound b) ?_ trivial ?_
      (fun hf => by rw [hv] at hf; cases hf) fun hf => by rw [hv] at hf; cases hf
    · have hc := h.refs.count b
      have := toNat_sub_one hne
      have hr0 : Pc.idle.refs b = 0 := rfl
      rw [hr1, hr0, hpins]
      change ((s.buf b).refcnt - 1).toNat + 1 = _
      omega
    · rw [ht]
      exact fun h => by cases h
  · split at hlinks
    · exact hlist.move hfr hlinks (hm.key rfl) hfresh
    · exact ⟨order, hlist.congr hlinks (hm.key rfl) hfresh⟩
  · exact h.contents.moves hm hd hst rfl rfl rfl (fun c _ => by rw [hpins]) fun hl hp => .inl ⟨hl, hpins ▸ hp⟩

theorem run_inv (h : Inv s) (he : s.run t = .ok s') : Inv s' := by
  have hok := h.refs.pc t
  unfold St.run at he
  cases ht : s.pc t with
  | idle =>
    rw [ht] at he
    cases he
  | wait b dev blockno =>
    rw [ht] at he
    dsimp only at he
    split at he
    · next hl =>
      cases he
      exact acquiresleep_inv h ht hl
    · cases he
  | locked b dev blockno =>
    rw [ht] at he hok
    obtain ⟨hk, hl⟩ := hok
    have hm : ∀ pc : Pc, pc.about = some b → (s.pc t).refs b = pc.refs b → pc.Ok (s.goto t pc) t →
        ((s.buf b).valid = true ∨ pc.loads = some b) → Inv (s.goto t pc) := fun pc ha hr hok hld =>
      h.goto_about (.inr (by rw [ht]; rfl)) (.inr ha) hr hok (by rw [ht]; exact fun h => by cases h) fun _ => hld
    dsimp only at he
    split at he
    · next hv =>
      cases he
      exact hm _ rfl (by rw [ht]; rfl) ⟨hk, hl, hv⟩ (.inl hv)
    · next hv =>
      cases he
      exact hm _ rfl (by rw [ht]; rfl) ⟨hk, hl, Bool.eq_false_iff.mpr hv⟩ (.inr rfl)
  | reading b dev blockno =>
    rw [ht] at he
    cases he
    exact read_inv h ht
  | got b dev blockno =>
    rw [ht] at he
    cases he
    exact h.goto_about (b := b) (.inr (by rw [ht]; rfl)) (.inl rfl) (by rw [ht]; rfl) trivial
      (by rw [ht]; exact fun h => by cases h) (by rw [ht]; exact fun h => by cases h)
  | writing b =>
    rw [ht] at he
    cases he
    exact write_inv h ht
  | releasing b =>
    rw [ht] at he
    cases he
    exact unref_inv h ht

/-- releasesleep, in brelse. -/
theorem brelse_inv (h : Inv s) (ht : s.pc t = .idle) (hl : (s.buf b).lock = some t) (hc : s.Written b ∨ 0 < s.pins b) :
    Inv ((s.setBuf b { s.buf b with lock := none }).goto t (.releasing b)) := by
  obtain ⟨order, hlist⟩ := h.list
  generalize hs : (s.setBuf b { s.buf b with lock := none }).goto t (.releasing b) = s'
  have hm : Moves s s' b { s.buf b with lock := none } t (.releasing b) := by
    subst hs
    exact .of_about rfl rfl (.inl (by rw [ht]; rfl)) (.inr rfl)
  have hpins : s'.pins = s.pins := by rw [← hs]; rfl
  have hv : (s.buf b).valid = true := h.refs.holder_valid ht hl
  refine ⟨?_, ⟨order, hlist.congr (by rw [← hs]; rfl) (hm.key rfl) (hm.fresh Iff.rfl)⟩, ?_⟩
  · refine h.refs.update hm (fun c _ => by rw [hpins]) (hpins ▸ h.refs.bound b) ?_ ?_ (.inl rfl) ?_ .inl
      (fun u hlu => by cases hlu) (fun hf => absurd (hv.symm.trans hf) (by simp)) fun hf => absurd (hv.symm.trans hf) (by simp)
    · have hcount := h.refs.count b
      have hr0 : (s.pc t).refs b = 0 := by rw [ht]; rfl
      have hr1 : (Pc.releasing b).refs b = 1 := by simp [Pc.refs, Pc.waitsFor, Pc.drops]
      rw [hl, Option.isSome_some, if_pos rfl] at hcount
      rw [hr0, hr1, hpins, Option.isSome_none, if_neg (by simp)]
      change (s.buf b).refcnt.toNat + 0 = _
      omega
    · change (s'.buf b).valid = true
      rw [hm.self]
      exact hv
    · intro u hut hlu
      rw [hl, Option.some.injEq] at hlu
      exact absurd hlu.symm hut
  · refine h.contents.moves hm (by rw [← hs]; rfl) (by rw [← hs]; rfl) rfl rfl rfl (fun c _ => by rw [hpins]) fun _ hp => .inr ?_
    refine hc.resolve_right fun hpos => ?_
    rw [hpins] at hp
    omega

/-- bpin. -/
theorem bpin_inv (h : Inv s) (ht : s.pc t = .idle) (hc : ¬ s.Fresh b ∧ s.pins b + NPROC + 2 < 2 ^ 32) :
    Inv { s.setBuf b { s.buf b with refcnt := (s.buf b).refcnt + 1 } with
      pins := Function.update s.pins b (s.pins b + 1) } := by
  obtain ⟨order, hlist⟩ := h.list
  generalize hs : { s.setBuf b { s.buf b with refcnt := (s.buf b).refcnt + 1 } with
    pins := Function.update s.pins b (s.pins b + 1) } = s'
  have hm : Moves s s' b { s.buf b with refcnt := (s.buf b).refcnt + 1 } t .idle := by
    subst hs
    exact .of_about rfl (by rw [← ht, Function.update_eq_self]; rfl) (.inl (by rw [ht]; rfl)) (.inl rfl)
  have hpins : s'.pins b = s.pins b + 1 := by simp [← hs]
  have hpins' : ∀ c, c ≠ b → s'.pins c = s.pins c := fun c hne => by simp [← hs, hne]
  have hcount := h.refs.count b
  have hone : ((s.buf b).refcnt + 1).toNat = (s.buf b).refcnt.toNat + 1 := by
    refine toNat_add_one ?_
    have := s.users_le b
    split at hcount <;> omega
  have hne0 : (s.buf b).refcnt + 1 ≠ 0 := fun h0 => by
    rw [h0] at hone
    cases hone
  have hr0 : (s.pc t).refs b = Pc.idle.refs b := by rw [ht]
  refine ⟨?_, ⟨order, hlist.congr (by rw [← hs]; rfl) (hm.key rfl) (hm.fresh ?_)⟩, ?_⟩
  · refine h.refs.touch hm rfl rfl rfl hpins' (by omega) ?_ trivial (by rw [ht]; exact fun h => by cases h) ?_
      fun _ h0 => absurd h0 hne0
    · rw [hone, hr0, hpins]
      omega
    · intro hv _
      refine (h.refs.load b hv fun h0 => hc.1 ⟨hv, h0⟩).imp_right fun ⟨u, hu⟩ => ⟨u, ?_⟩
      rwa [hm.pc, ← ht, Function.update_eq_self]
  · exact ⟨fun hf => absurd hf.2 hne0, fun hf => absurd hf hc.1⟩
  · refine h.contents.moves hm (by rw [← hs]; rfl) (by rw [← hs]; rfl) rfl rfl rfl hpins' fun _ hp => ?_
    omega

/-- bunpin. -/
theorem bunpin_inv (h : Inv s) (ht : s.pc t = .idle)
    (hc : 0 < s.pins b ∧ (s.Written b ∨ (s.buf b).lock ≠ none ∨ 1 < s.pins b)) :
    Inv { s.setBuf b { s.buf b with refcnt := (s.buf b).refcnt - 1 } with
      pins := Function.update s.pins b (s.pins b - 1) } := by
  obtain ⟨order, hlist⟩ := h.list
  generalize hs : { s.setBuf b { s.buf b with refcnt := (s.buf b).refcnt - 1 } with
    pins := Function.update s.pins b (s.pins b - 1) } = s'
  have hm : Moves s s' b { s.buf b with refcnt := (s.buf b).refcnt - 1 } t .idle := by
    subst hs
    exact .of_about rfl (by rw [← ht, Function.update_eq_self]; rfl) (.inl (by rw [ht]; rfl)) (.inl rfl)
  have hpins : s'.pins b = s.pins b - 1 := by simp [← hs]
  have hpins' : ∀ c, c ≠ b → s'.pins c = s.pins c := fun c hne => by simp [← hs, hne]
  have hcount := h.refs.count b
  have hbound := h.refs.bound b
  have hne : (s.buf b).refcnt ≠ 0 := h.refs.refcnt_ne_zero (by omega)
  have hone := toNat_sub_one hne
  have hr0 : (s.pc t).refs b = Pc.idle.refs b := by rw [ht]
  -- a buffer whose contents are on the way keeps the reference of the process that waits for them
  have hkeep : (s.buf b).valid = false → (s.buf b).refcnt - 1 ≠ 0 := fun hv h0 => by
    rw [h0] at hone
    have hz : (0 : UInt32).toNat = 0 := rfl
    rcases h.refs.load b hv hne with hl | ⟨u, hu⟩
    · rw [hl, if_pos rfl] at hcount
      omega
    · have h1 := s.refs_le_users (b := b) u
      have h2 : 1 ≤ (s.pc u).refs b := by
        rw [Pc.refs, hu, if_pos rfl]
        omega
      omega
  refine ⟨?_, ⟨order, hlist.congr (by rw [← hs]; rfl) (hm.key rfl) (hm.fresh ?_)⟩, ?_⟩
  · refine h.refs.touch hm rfl rfl rfl hpins' (by omega) ?_ trivial (by rw [ht]; exact fun h => by cases h) ?_
      fun hv h0 => absurd h0 (hkeep hv)
    · rw [hr0, hpins]
      change ((s.buf b).refcnt - 1).toNat + _ = _
      omega
    · intro hv _
      refine (h.refs.load b hv hne).imp_right fun ⟨u, hu⟩ => ⟨u, ?_⟩
      rwa [hm.pc, ← ht, Function.update_eq_self]
  · exact ⟨fun hf => absurd hf.2 (hkeep hf.1), fun hf => absurd hf.2 hne⟩
  · refine h.contents.moves hm (by rw [← hs]; rfl) (by rw [← hs]; rfl) rfl rfl rfl hpins' fun hl hp => .inr ?_
    rcases hc.2 with hw | hl' | hp'
    · exact hw
    · exact absurd hl hl'
    · omega

/-- A holder writes to the data. -/
theorem change_inv (h : Inv s) (ht : s.pc t = .idle) (hl : (s.buf b).lock = some t) (x : α) :
    Inv { s.setBuf b { s.buf b with data := x } with stored := put s.stored (s.buf b).dev (s.buf b).blockno x } := by
  obtain ⟨order, hlist⟩ := h.list
  generalize hs : { s.setBuf b { s.buf b with data := x } with
    stored := put s.stored (s.buf b).dev (s.buf b).blockno x } = s'
  have hm : Moves s s' b { s.buf b with data := x } t .idle := by
    subst hs
    exact .of_about rfl (by rw [← ht, Function.update_eq_self]; rfl) (.inl (by rw [ht]; rfl)) (.inl rfl)
  have hpins : s'.pins = s.pins := by rw [← hs]; rfl
  have hv : (s.buf b).valid = true := h.refs.holder_valid ht hl
  have hr0 : (s.pc t).refs b = Pc.idle.refs b := by rw [ht]
  refine ⟨?_, ⟨order, hlist.congr (by rw [← hs]; rfl) (hm.key rfl) (hm.fresh Iff.rfl)⟩, ?_⟩
  · refine h.refs.touch hm rfl rfl rfl (fun c _ => by rw [hpins]) (hpins ▸ h.refs.bound b) ?_ trivial
      (by rw [ht]; exact fun h => by cases h) (fun hf => absurd (hv.symm.trans hf) (by simp)) fun hf => absurd (hv.symm.trans hf) (by simp)
    have hcount := h.refs.count b
    rw [hr0, hpins]
    change (s.buf b).refcnt.toNat + _ = _
    omega
  · exact h.contents.change hlist hm hv hl (by rw [← hs]; rfl) hpins (by rw [← hs])

theorem call_inv (h : Inv s) {lb : Label α} (ht : s.pc lb.proc = .idle) (hc : Client s lb) (he : call s lb = .ok s') :
    Inv s' := by
  cases lb with
  | bread t dev blockno =>
    have he : s.bget t dev blockno = .ok s' := he
    rcases bget_cases h (show s.pc t = .idle from ht) dev blockno with hp | ⟨s1, h1, hi⟩
    · rw [hp] at he
      cases he
    · rw [h1] at he
      cases he
      exact hi
  | bwrite t b =>
    dsimp only [call] at he
    split at he
    · next hl =>
      cases he
      have ht : s.pc t = .idle := ht
      have hv : (s.buf b).valid = true := h.refs.holder_valid ht hl
      exact h.goto_about (b := b) (.inl (by rw [ht]; rfl)) (.inr rfl) (by rw [ht]; rfl) ⟨hl, hv⟩
        (by rw [ht]; simp [Pc.waitsFor]) fun _ => .inl hv
    · cases he
  | brelse t b =>
    dsimp only [call] at he
    split at he
    · next hl =>
      cases he
      exact brelse_inv h ht hl hc
    · cases he
  | bpin t b =>
    cases he
    exact bpin_inv h ht hc
  | bunpin t b =>
    cases he
    exact bunpin_inv h ht hc
  | change t b x =>
    cases he
    exact change_inv h ht hc x
  | run t => cases he

theorem step_inv {lb : Label α} (h : Inv s) (hc : Client s lb) (he : step s lb = .ok s') : Inv s' := by
  obtain ⟨t, rfl, he⟩ | ⟨ht, he⟩ := step_cases he
  · exact run_inv h he
  · exact call_inv h ht hc he

theorem init_inv (h : init s) : Inv s := by
  obtain ⟨disk, junk, rfl⟩ := h
  obtain ⟨order, hnd, hall, hseg⟩ := binit_seg
  have hfresh : ∀ b, St.Fresh (⟨fun _ => ⟨false, 0, 0, none, 0, junk⟩, binit, disk, fun _ => .idle, fun _ => 0, disk⟩ : St α) b :=
    fun _ => ⟨rfl, rfl⟩
  refine ⟨⟨fun b => ?_, fun b => show 0 + NPROC + 1 < 2 ^ 32 by decide, fun t => trivial, fun b t hl => ?_, fun b _ h0 => absurd rfl h0, fun b _ => rfl⟩,
    ⟨order, hnd, hall, hseg, ?_, fun a b _ _ => .inl (hfresh a)⟩, ⟨fun b hv => ?_, fun d k _ => rfl, fun b hv => ?_⟩⟩
  · simp [St.users, Pc.refs, Pc.waitsFor, Pc.drops]
  · cases hl
  · exact List.pairwise_of_forall fun a b _ _ => hfresh b
  · cases hv
  · cases hv

end Steps

/-! ## Every run -/

theorem bget_key {s s' : St α} {t : Fin NPROC} {dev blockno : UInt32} {b : Fin NBUF} (h : Inv s)
    (he : s.bget t dev blockno = .ok s') (hb : (s.buf b).refcnt ≠ 0) : s'.key b = s.key b := by
  obtain ⟨order, hlist⟩ := h.list
  unfold St.bget at he
  rw [hlist.cached_eq, hlist.unused_eq] at he
  cases hc : order.find? fun b => (s.buf b).dev = dev ∧ (s.buf b).blockno = blockno with
  | some c =>
    rw [hc] at he
    cases he
    by_cases hbc : b = c
    · subst hbc
      simp [St.key, St.setBuf, St.goto]
    · simp [St.key, St.setBuf, St.goto, hbc]
  | none =>
    rw [hc] at he
    cases hc' : order.reverse.find? fun b => (s.buf b).refcnt = 0 with
    | none =>
      rw [hc'] at he
      cases he
    | some c =>
      rw [hc'] at he
      cases he
      have h0 : (s.buf c).refcnt = 0 := by simpa using List.find?_some hc'
      have hbc : b ≠ c := fun hbc => hb (hbc ▸ h0)
      simp [St.key, St.setBuf, St.goto, hbc]

theorem key_setBuf {s : St α} {b c : Fin NBUF} {v : Buf α} (hv : (v.dev, v.blockno) = s.key c) :
    (s.setBuf c v).key b = s.key b := by
  by_cases hbc : b = c
  · subst hbc
    simpa [St.key, St.setBuf] using hv
  · simp [St.key, St.setBuf, hbc]

theorem run_key {s s' : St α} {t : Fin NPROC} (he : s.run t = .ok s') (b : Fin NBUF) : s'.key b = s.key b := by
  unfold St.run at he
  split at he
  · cases he
  · split at he
    · cases he
      exact key_setBuf rfl
    · cases he
  · split at he <;> cases he <;> rfl
  · cases he
    exact key_setBuf rfl
  · cases he
    rfl
  · cases he
    rfl
  · next c _ =>
    cases he
    unfold St.unref
    dsimp only
    split <;> exact key_setBuf rfl

/-- A buffer in use keeps its block. -/
theorem step_key {s s' : St α} {lb : Label α} {b : Fin NBUF} (h : Inv s) (he : step s lb = .ok s')
    (hb : (s.buf b).refcnt ≠ 0) : s'.key b = s.key b := by
  obtain ⟨t, rfl, he⟩ | ⟨-, he⟩ := step_cases he
  · exact run_key he b
  cases lb with
  | bread t dev blockno => exact bget_key h he hb
  | bwrite t c =>
    dsimp only [call] at he
    split at he <;> cases he
    rfl
  | brelse t c =>
    dsimp only [call] at he
    split at he <;> cases he
    exact key_setBuf rfl
  | bpin t c =>
    cases he
    exact key_setBuf rfl
  | bunpin t c =>
    cases he
    exact key_setBuf rfl
  | change t c x =>
    cases he
    exact key_setBuf rfl
  | run t => cases he

/-- **The buffer cache.** In every run of clients that keep the rules: a block of a device other than 0 has at most one
buffer; `refcnt` counts the holders, the waiters and the pins, and a buffer that has any keeps its block at every step;
the links are one circle through the head and all the buffers; bread returns its block's buffer, locked, with the
contents stored last; and its searches end. -/
theorem buffer_cache {s₀ s : St α} {as : List (Label α)} (h0 : init s₀) (hc : Along step Client s₀ as)
    (hr : runs step s₀ as = .ok s) :
    (∀ a b, (s.buf a).dev ≠ 0 → s.key a = s.key b → a = b) ∧
    (∀ b, (s.buf b).refcnt.toNat = s.holders b + s.waiters b + s.pins b ∧
      (0 < s.holders b + s.waiters b + s.pins b → ∀ lb s', step s lb = .ok s' → s'.key b = s.key b)) ∧
    (∃ order : List (Fin NBUF), order.Nodup ∧ (∀ b, b ∈ order) ∧ Links.Seg s.links none (order.map some) none) ∧
    (∀ t b dev blockno, s.pc t = .got b dev blockno →
      (s.buf b).lock = some t ∧ s.key b = (dev, blockno) ∧ (s.buf b).data = s.stored dev blockno) ∧
    ∀ t dev blockno, s.pc t = .idle → step s (.bread t dev blockno) ≠ .disabled := by
  have h : Inv s := hc.invariant (I := Inv) (fun _ _ _ hi hcl he => step_inv hi hcl he) (init_inv h0) hr
  obtain ⟨order, hlist⟩ := h.list
  refine ⟨fun a b hdev hk => ?_, fun b => ?_, ⟨order, hlist.nodup, hlist.all, hlist.seg⟩, fun t b dev blockno hpc => ?_,
    fun t dev blockno ht => ?_⟩
  · by_contra hne
    have hz : s.key a = (0, 0) := by
      rcases hlist.once a b hne hk with hf | hf
      · exact h.refs.fresh a hf
      · exact hk.trans (h.refs.fresh b hf)
    exact hdev (congrArg Prod.fst hz)
  · have hcount := h.refs.count b
    rw [s.users_add_lock] at hcount
    refine ⟨hcount, fun hpos lb s' he => step_key h he fun hz => ?_⟩
    rw [hz] at hcount
    have h0 : (0 : UInt32).toNat = 0 := rfl
    omega
  · have hok := h.refs.pc t
    rw [hpc] at hok
    obtain ⟨hk, hl, hv⟩ := hok
    obtain ⟨rfl, rfl⟩ : (s.buf b).dev = dev ∧ (s.buf b).blockno = blockno := Prod.ext_iff.mp hk
    exact ⟨hl, rfl, h.contents.cache b hv⟩
  · have hs : step s (.bread t dev blockno) = s.bget t dev blockno := by
      simp only [step, Label.proc, ht, call]
    rw [hs]
    rcases bget_cases h ht dev blockno with hp | ⟨s1, h1, -⟩
    · rw [hp]
      exact fun h => by cases h
    · rw [h1]
      exact fun h => by cases h

instance [DecidableEq α] (s : St α) (lb : Label α) : Decidable (Client s lb) := by
  cases lb <;> unfold Client St.Written St.Fresh <;> infer_instance

/-- A disk of zeros. -/
def booted : St Nat :=
  ⟨fun _ => ⟨false, 0, 0, none, 0, 0⟩, binit, fun _ _ => 0, fun _ => .idle, fun _ => 0, fun _ _ => 0⟩

/-- Process 0 stores 7 in block 5 and pins it; process 1 reads the block. -/
def readPinned : List (Label Nat) :=
  [.bread 0 1 5, .run 0, .run 0, .run 0, .run 0, .change 0 0 7, .bpin 0 0, .brelse 0 0, .run 0, .bread 1 1 5, .run 1, .run 1]

/-- It gets the 7, which is not on the disk yet. -/
theorem buffer_cache_pinned : ∃ s, runs step booted readPinned = .ok s ∧ s.pc 1 = .got 0 1 5 ∧ s.disk 1 5 = 0 ∧
    s.stored 1 5 = 7 ∧ (s.buf 0).data = s.stored 1 5 := by
  have he : (runs step booted readPinned).goesOn (fun s => s.pc 1 = .got 0 1 5 ∧ s.disk 1 5 = 0 ∧ s.stored 1 5 = 7) = true := by
    decide +kernel
  obtain ⟨s, hr, hs⟩ := Outcome.exists_of_goesOn he
  obtain ⟨hpc, hd, hst⟩ := of_decide_eq_true hs
  have h := buffer_cache (show init booted from ⟨_, 0, rfl⟩) (by decide +kernel) hr
  exact ⟨s, hr, hpc, hd, hst, (h.2.2.2.1 1 0 1 5 hpc).2.2⟩

end Xv6.Bio
