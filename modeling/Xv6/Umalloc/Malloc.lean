/-
malloc, and any sequence of malloc and free calls. As long as the memory obtained from
sbrk can be counted in headers with 32 bits, every call returns, the blocks a program has
are disjoint and as large as it asked, and with the free list they tile the memory
(`heap_invariant`). Beyond that the size of a joined block wraps, and memory is lost
(`heap_loses_memory`).
-/
import Xv6.Umalloc.Heap

namespace Xv6.Umalloc

open Lib Extent

variable {base n : Nat} {s s' : State} {F live : List Extent} {b : Extent} {sbrk : Sbrk}

/-! ## Taking a block -/

/-- A block of `n` headers is taken off the free list, or off the end of one. -/
theorem take_spec (h : Heap base s F live) (hc : Core base s) (hn : 0 < n) (hb : b ∈ F) (hfit : n ≤ s.size b.addr)
    {x : Nat} (hx : x ∈ base :: F.map addr) (hptr : s.ptr x = b.addr) :
    ∃ s' c F', take n x b.addr s = (add c.addr 1, s') ∧ Heap base s' F' (c :: live) ∧ c.len = HEADER * n ∧
      s'.core = s.core := by
  have hsorted := h.sorted hc
  have hnodup : (base :: F.map addr).Nodup := hsorted.imp fun hlt => hlt.ne
  obtain ⟨A, B, rfl⟩ := List.append_of_mem hb
  rw [List.map_append, List.map_cons] at hx hnodup
  have hchain := h.chain
  rw [List.map_append, List.map_cons] at hchain
  have hpred := hchain.pred (List.nodup_append_comm.mp hnodup) hx hptr
  have hsz := h.tiled.sizes b (by simp)
  have hbr := h.tiled.range hc (b := b) (by simp)
  unfold take
  by_cases he : s.size b.addr = n
  · rw [if_pos he]
    refine ⟨_, b, A ++ B, rfl, ⟨?_, h.base_size, ?_, ?_, ?_⟩, ?_, rfl⟩
    · rw [List.map_append, hpred]
      exact hchain.unlink hnodup
    · dsimp only
      rw [hpred, List.map_append, ← List.cons_append]
      exact List.mem_append_left _ List.getLastD_mem_cons
    · exact h.apart.sublist (List.Sublist.append_left (List.sublist_cons_self b B) A)
    · refine (h.tiled.perm (List.perm_iff_count.mpr fun a => ?_)).congr rfl rfl
      simp only [List.count_append, List.count_cons]
      omega
    · rw [← hsz.1, he]
  · rw [if_neg he]
    have hlt : n < s.size b.addr := lt_of_le_of_ne hfit (Ne.symm he)
    have hstop : b.stop = b.addr + b.len := rfl
    have hmul : HEADER * (s.size b.addr - n) + HEADER * n = b.len := by
      rw [← Nat.mul_add, Nat.sub_add_cancel hfit, hsz.1]
    have hpos : 0 < HEADER * n := Nat.mul_pos (by decide) hn
    have hp : add b.addr (s.size b.addr - n) = b.stop - HEADER * n := by
      rw [add, u64, Nat.mod_eq_of_lt (by omega)]
      omega
    have htile : Tiled s (b :: (A ++ B ++ live)) := h.tiled.perm <| List.perm_iff_count.mpr fun a => by
      simp only [List.count_append, List.count_cons]
      omega
    dsimp only
    rw [Function.update_self, hp]
    obtain ⟨hapA, hapB, hapAB⟩ := List.pairwise_append.mp h.apart
    obtain ⟨hapb, hapB⟩ := List.pairwise_cons.mp hapB
    refine ⟨_, ⟨b.stop - HEADER * n, HEADER * n⟩, A ++ ⟨b.addr, b.len - HEADER * n⟩ :: B, rfl, ⟨?_, ?_, ?_, ?_, ?_⟩, rfl, rfl⟩
    · rw [List.map_append, List.map_cons]
      exact hchain
    · dsimp only
      rw [Function.update_of_ne (by omega), Function.update_of_ne (by omega)]
      exact h.base_size
    · rw [List.map_append, List.map_cons]
      exact hx
    · refine List.pairwise_append.mpr ⟨hapA, List.pairwise_cons.mpr ⟨fun d hd => ?_, hapB⟩, fun c hcA d hd => ?_⟩
      · have := hapb d hd
        simp only [stop] at *
        omega
      · rcases List.mem_cons.mp hd with rfl | hd
        · exact hapAB c hcA b List.mem_cons_self
        · exact hapAB c hcA d (List.mem_cons_of_mem b hd)
    · refine Tiled.perm (htile.cut hc hn hlt rfl rfl) (List.perm_iff_count.mpr fun a => ?_)
      simp only [List.count_append, List.count_cons]
      omega

/-! ## The search -/

/-- The loop goes on as long as no block fits. -/
theorem mallocLoop_skip {a q : Nat} {xs : List Nat} (h : Chain s.ptr a xs q) (hx : ∀ x ∈ xs, s.size x < n ∧ x ≠ s.freep)
    (fuel : Nat) :
    mallocLoop sbrk n (fuel + xs.length) a (s.ptr a) s = mallocLoop sbrk n fuel (xs.getLastD a) q s := by
  induction xs generalizing a with
  | nil => rw [show s.ptr a = q from h]; rfl
  | cons x xs ih =>
    obtain ⟨hsz, hne⟩ := hx x List.mem_cons_self
    rw [List.length_cons, ← Nat.add_assoc, mallocLoop, h.1, if_neg (by omega), if_neg hne, List.getLastD_cons]
    exact ih h.2 fun y hy => hx y (List.mem_cons_of_mem x hy)

/-- The nodes in the order of the search: all of them, the one it starts from last. -/
theorem Heap.circle (h : Heap base s F live) (hc : Core base s) : ∃ V, Chain s.ptr s.freep V s.freep ∧
    (s.freep :: V).Perm (base :: F.map addr) ∧ s.freep ∉ V := by
  have hnodup : (base :: F.map addr).Nodup := (h.sorted hc).imp fun hlt => hlt.ne
  obtain ⟨X, Y, he⟩ := List.append_of_mem h.freep
  have hp : (s.freep :: (Y ++ X)).Perm (base :: F.map addr) := by
    rw [he]
    change (s.freep :: Y ++ X).Perm _
    exact List.perm_append_comm
  exact ⟨Y ++ X, h.chain.rotate he, hp, (List.nodup_cons.mp (hp.nodup_iff.mpr hnodup)).1⟩

/-- **If a block fits, one is taken.** -/
theorem Heap.search (sbrk : Sbrk) (h : Heap base s F live) (hc : Core base s) (hn : 0 < n) (hfit : ∃ b ∈ F, n ≤ s.size b.addr) :
    ∃ s' c F' N, (∀ fuel ≥ N, mallocLoop sbrk n fuel s.freep (s.ptr s.freep) s = some (add c.addr 1, s')) ∧
      Heap base s' F' (c :: live) ∧ c.len = HEADER * n ∧ s'.core = s.core := by
  obtain ⟨V, hchain, hperm, hnot⟩ := h.circle hc
  -- the first that fits
  obtain ⟨W, x, hW, hskip, hx, hxV, hsub⟩ : ∃ W x, Chain s.ptr s.freep W x ∧ (∀ y ∈ W, s.size y < n ∧ y ≠ s.freep) ∧
      n ≤ s.size x ∧ x ∈ s.freep :: V ∧ W ⊆ V := by
    have hne {y : Nat} (hy : y ∈ V) : y ≠ s.freep := fun he => hnot (he ▸ hy)
    by_cases hV : ∃ y ∈ V, n ≤ s.size y
    · have hsplit := List.takeWhile_append_dropWhile (p := fun y => decide (s.size y < n)) (l := V)
      cases hd : V.dropWhile fun y => decide (s.size y < n) with
      | nil =>
        obtain ⟨y, hy, hfy⟩ := hV
        have := List.dropWhile_eq_nil_iff.mp hd y hy
        simp only [decide_eq_true_eq] at this
        omega
      | cons x R =>
        have hfx := List.head_dropWhile_not (fun y => decide (s.size y < n)) (l := V) (by rw [hd]; exact List.cons_ne_nil x R)
        simp only [hd, List.head_cons, decide_eq_false_iff_not, not_lt] at hfx
        rw [hd] at hsplit
        rw [← hsplit] at hchain
        refine ⟨_, x, (Chain.append_iff.mp hchain).1, fun y hy => ⟨?_, hne ?_⟩, hfx, ?_, List.takeWhile_subset _⟩
        · simpa using List.mem_takeWhile_imp hy
        · exact List.takeWhile_subset _ hy
        · rw [← hsplit]
          simp
    · obtain ⟨b, hb, hfb⟩ := hfit
      have hbV := hperm.mem_iff.mpr (List.mem_cons_of_mem base (List.mem_map_of_mem (f := addr) hb))
      push Not at hV
      refine ⟨V, s.freep, hchain, fun y hy => ⟨hV y hy, hne hy⟩, ?_, List.mem_cons_self, fun _ hy => hy⟩
      rcases List.mem_cons.mp hbV with he | hbV
      · exact he ▸ hfb
      · exact absurd hfb (not_le.mpr (hV _ hbV))
  have hxf : x ∈ F.map addr := by
    rcases List.mem_cons.mp (hperm.mem_iff.mp hxV) with rfl | hm
    · rw [h.base_size] at hx
      omega
    · exact hm
  obtain ⟨b, hb, rfl⟩ := List.mem_map.mp hxf
  have hprev : W.getLastD s.freep ∈ base :: F.map addr :=
    hperm.mem_iff.mp (List.cons_subset_cons s.freep hsub List.getLastD_mem_cons)
  obtain ⟨s', c, F', htake, hheap, hlen, hcore⟩ := take_spec h hc hn hb hx hprev hW.last
  refine ⟨s', c, F', W.length + 1, fun fuel hf => ?_, hheap, hlen, hcore⟩
  have hfuel : fuel = fuel - (W.length + 1) + 1 + W.length := by omega
  rw [hfuel, mallocLoop_skip hW hskip, mallocLoop, if_pos hx, htake]

/-- **If no block fits, there is more core.** -/
theorem Heap.exhausted (sbrk : Sbrk) (h : Heap base s F live) (hc : Core base s) (hn : 0 < n) (hfit : ∀ b ∈ F, s.size b.addr < n) :
    ∃ N, ∀ fuel, mallocLoop sbrk n (fuel + 1 + N) s.freep (s.ptr s.freep) s =
      match morecore sbrk n s fuel with
      | none => none
      | some (p, s) => if p = 0 then some (0, s) else mallocLoop sbrk n fuel p (s.ptr p) s := by
  obtain ⟨V, hchain, hperm, hnot⟩ := h.circle hc
  have hsmall (x : Nat) (hx : x ∈ s.freep :: V) : s.size x < n := by
    rcases List.mem_cons.mp (hperm.mem_iff.mp hx) with rfl | hm
    · rw [h.base_size]
      exact hn
    · obtain ⟨b, hb, rfl⟩ := List.mem_map.mp hm
      exact hfit b hb
  refine ⟨V.length, fun fuel => ?_⟩
  rw [mallocLoop_skip hchain fun x hx => ⟨hsmall x (List.mem_cons_of_mem _ hx), fun he => hnot (he ▸ hx)⟩, mallocLoop,
    if_neg (not_le.mpr (hsmall _ List.mem_cons_self))]
  exact if_pos rfl

/-! ## The calls -/

/-- What is assumed of sbrk: new memory above the static header and all that was obtained before. -/
def Fresh (base : Nat) (sbrk : Sbrk) : Prop := ∀ s n a, sbrk s n = some a →
  HEADER ∣ a ∧ base + HEADER ≤ a ∧ (∀ r ∈ s.core, r.stop ≤ a) ∧ a + n < 2 ^ 64

/-- The memory obtained can be counted in 32 bits. -/
def Small (sbrk : Sbrk) : Prop := ∀ s n a, sbrk s n = some a → total s.core + n < HEADER * 2 ^ 32

/-- sbrk's memory is one more block in use. -/
theorem Heap.grow (h : Heap base s F live) (hc : Core base s) (hf : Fresh base sbrk) (hs : Small sbrk) {nu a : Nat}
    (hnu : 0 < nu) (ha : sbrk s (nu * HEADER) = some a) :
    Heap base { s with core := ⟨a, nu * HEADER⟩ :: s.core, size := Function.update s.size a nu } F
      (⟨a, nu * HEADER⟩ :: live) ∧
    Core base { s with core := ⟨a, nu * HEADER⟩ :: s.core, size := Function.update s.size a nu } := by
  obtain ⟨-, hlo, hfresh, hhi⟩ := hf s _ a ha
  have hsmall := hs s _ a ha
  have hpos : 0 < nu * HEADER := Nat.mul_pos hnu (by decide)
  have hnone (x : Nat) (hx : a ≤ x) : cover s.core x = 0 := by
    by_contra hne
    obtain ⟨r, hr, hrx⟩ := cover_pos.mp (Nat.pos_of_ne_zero hne)
    have := hfresh r hr
    have := hrx.2
    omega
  have hne (b : Extent) (hb : b ∈ F ++ live) : b.addr ≠ a := by
    intro he
    have := (h.tiled.sizes b hb).2
    obtain ⟨r, hr, hrx⟩ := h.tiled.mem_core hb (x := b.addr) ⟨le_rfl, by unfold stop; omega⟩
    have := cover_pos.mpr ⟨r, hr, hrx⟩
    rw [he, hnone a le_rfl] at this
    exact absurd this (lt_irrefl 0)
  have htile : Tiled { s with core := ⟨a, nu * HEADER⟩ :: s.core, size := Function.update s.size a nu }
      (⟨a, nu * HEADER⟩ :: (F ++ live)) := by
    refine ⟨fun b hb => ?_, fun x => ?_, ?_⟩
    · dsimp only
      rcases List.mem_cons.mp hb with rfl | hb
      · rw [Function.update_self]
        exact ⟨Nat.mul_comm .., hpos⟩
      · rw [Function.update_of_ne (hne b hb)]
        exact h.tiled.sizes b hb
    · dsimp only
      rw [cover_cons, cover_cons, h.tiled.cover]
    · dsimp only
      rw [total_cons, total_cons, h.tiled.total]
  refine ⟨⟨h.chain, ?_, h.freep, h.apart, htile.perm List.perm_middle.symm⟩, ⟨fun x => ?_, fun r hr => ?_, ?_⟩⟩
  · dsimp only
    rw [Function.update_of_ne (by have : HEADER = 16 := rfl; omega)]
    exact h.base_size
  · rw [cover_cons]
    split
    · next hx => rw [hnone x hx.1]
    · rw [Nat.zero_add]
      exact hc.once x
  · rcases List.mem_cons.mp hr with rfl | hr
    · exact ⟨hlo, hhi⟩
    · exact hc.range r hr
  · rw [total_cons]
    dsimp only
    omega

/-- The allocator before its first call, or a heap; base is below all blocks. -/
def Sane (base : Nat) (s : State) (live : List Extent) : Prop :=
  s.freep = 0 ∧ s.core = [] ∧ live = [] ∨ ∃ F, Heap base s F live ∧ (base :: F.map addr).Pairwise (· < ·)

theorem Core.congr (h : Core base s) (hc : s'.core = s.core) : Core base s' := ⟨hc ▸ h.once, hc ▸ h.range, hc ▸ h.small⟩

theorem Heap.header (h : Heap base s F (b :: live)) (hc : Core base s) :
    add b.addr 1 = b.addr + HEADER ∧ HEADER * s.size b.addr = b.len := by
  obtain ⟨hsz, hpos⟩ := h.tiled.sizes b (by simp)
  obtain ⟨-, hlt, -⟩ := h.tiled.range hc (b := b) (by simp)
  refine ⟨?_, hsz⟩
  have hone : s.size b.addr ≠ 0 := fun h0 => by
    rw [h0] at hsz
    omega
  simp only [add, u64, HEADER, stop] at *
  omega

theorem Heap.freep_pos (h : Heap base s F live) (hbase : 0 < base) (hc : Core base s) : 0 < s.freep := by
  rcases List.mem_cons.mp h.freep with he | hm
  · omega
  · obtain ⟨b, hb, he⟩ := List.mem_map.mp hm
    have := (h.tiled.range hc (b := b) (by simp [hb])).1
    omega

theorem units_spec {nbytes : Nat} (h : nbytes < 2 ^ 32) : 0 < units nbytes ∧ HEADER + nbytes ≤ HEADER * units nbytes := by
  simp only [units, u32, HEADER]
  omega

/-- The loop of malloc from a heap. -/
theorem mallocLoop_spec (hbase : 0 < base) (hf : Fresh base sbrk) (hs : Small sbrk) (h : Heap base s F live)
    (hc : Core base s) (hn : 0 < n) : ∃ q s' N, (∀ fuel ≥ N, mallocLoop sbrk n fuel s.freep (s.ptr s.freep) s = some (q, s')) ∧
      Core base s' ∧ (q = 0 ∧ Heap base s' F live ∨
        ∃ c F', q = add c.addr 1 ∧ Heap base s' F' (c :: live) ∧ c.len = HEADER * n) := by
  by_cases hfit : ∃ b ∈ F, n ≤ s.size b.addr
  · obtain ⟨s', c, F', N, hrun, hheap, hlen, hcore⟩ := h.search sbrk hc hn hfit
    exact ⟨_, s', N, hrun, hc.congr hcore, .inr ⟨c, F', rfl, hheap, hlen⟩⟩
  push Not at hfit
  obtain ⟨N, hrun⟩ := h.exhausted sbrk hc hn hfit
  unfold morecore at hrun
  dsimp only at hrun
  generalize hnu : (if n < 4096 then 4096 else n) = nu at hrun
  have hle : n ≤ nu ∧ 0 < nu := by
    rw [← hnu]
    split <;> omega
  cases ha : sbrk s (nu * HEADER) with
  | none =>
    rw [ha] at hrun
    refine ⟨0, s, 1 + N, fun fuel hfuel => ?_, hc, .inl ⟨rfl, h⟩⟩
    rw [show fuel = fuel - (1 + N) + 1 + N by omega]
    exact hrun _
  | some a =>
    rw [ha] at hrun
    obtain ⟨h₁, hc₁⟩ := h.grow hc hf hs hle.2 ha
    obtain ⟨s₂, F₂, ⟨N₂, hfree⟩, h₂, hcore₂, c, hcf, hcl⟩ := free_spec h₁ hc₁
    have hc₂ := hc₁.congr hcore₂
    have hcfit : n ≤ s₂.size c.addr := by
      have hsz := (h₂.tiled.sizes c (by simp [hcf])).1
      simp only [HEADER] at *
      omega
    obtain ⟨s', d, F', N₃, hrun₃, hheap, hlen, hcore⟩ := h₂.search sbrk hc₂ hn ⟨c, hcf, hcfit⟩
    refine ⟨_, s', max N₂ N₃ + 1 + N, fun fuel hfuel => ?_, hc₂.congr hcore, .inr ⟨d, F', rfl, hheap, hlen⟩⟩
    have hstep := hrun (fuel - (1 + N))
    dsimp only at hstep hfree
    rw [hfree _ (by omega)] at hstep
    rw [show fuel = fuel - (1 + N) + 1 + N by omega, hstep]
    dsimp only [Option.map_some]
    rw [if_neg (h₂.freep_pos hbase hc₂).ne']
    exact hrun₃ _ (by omega)

/-- **malloc** returns 0 and leaves the blocks as they are, or a block in use. -/
theorem malloc_spec {nbytes : Nat} (hbase : 0 < base) (hf : Fresh base sbrk) (hs : Small sbrk) (h : Sane base s live)
    (hc : Core base s) (hn : nbytes < 2 ^ 32) : ∃ q s', Yields (malloc base sbrk nbytes s) (q, s') ∧ Core base s' ∧
      (q = 0 ∧ Sane base s' live ∨
        ∃ c, q = c.addr + HEADER ∧ HEADER * s'.size c.addr = c.len ∧ Sane base s' (c :: live) ∧ HEADER + nbytes ≤ c.len) := by
  obtain ⟨hpos, hunits⟩ := units_spec hn
  -- the first call links base to itself
  obtain ⟨s₁, F, hs₁, h₁, hc₁⟩ : ∃ s₁ F, (if s.freep = 0 then
        { s with ptr := Function.update s.ptr base base, size := Function.update s.size base 0, freep := base }
      else s) = s₁ ∧ Heap base s₁ F live ∧ Core base s₁ := by
    rcases h with ⟨h0, hcore, rfl⟩ | ⟨F, h, -⟩
    · refine ⟨_, [], if_pos h0, ⟨Function.update_self .., Function.update_self .., List.mem_cons_self, List.Pairwise.nil,
        by simp, fun x => ?_, ?_⟩, hc.congr rfl⟩
      · rw [hcore]
        rfl
      · rw [hcore]
        rfl
    · exact ⟨s, F, if_neg (h.freep_pos hbase hc).ne', h, hc⟩
  obtain ⟨q, s', N, hrun, hc', hres⟩ := mallocLoop_spec hbase hf hs h₁ hc₁ hpos
  refine ⟨q, s', ⟨N, fun fuel hfuel => ?_⟩, hc', ?_⟩
  · unfold malloc
    rw [hs₁]
    exact hrun fuel hfuel
  · rcases hres with ⟨hq, hheap⟩ | ⟨c, F', hq, hheap, hlen⟩
    · exact .inl ⟨hq, .inr ⟨F, hheap, hheap.sorted hc'⟩⟩
    · obtain ⟨hadd, hsz⟩ := hheap.header hc'
      exact .inr ⟨c, hq.trans hadd, hsz, .inr ⟨F', hheap, hheap.sorted hc'⟩, hlen ▸ hunits⟩

/-! ## Runs -/

/-- What the program may do to the headers: write into the blocks it has, behind their own headers. -/
def Writes (live : List Extent) (s s' : State) : Prop := s'.freep = s.freep ∧ s'.core = s.core ∧
  ∀ x, s'.ptr x ≠ s.ptr x ∨ s'.size x ≠ s.size x → ∃ b ∈ live, b.addr < x ∧ x < b.stop

/-- A program's calls, with the blocks it has; `C` is a condition on sbrk. -/
inductive Run (base : Nat) (C : Sbrk → Prop) : State → List Extent → Prop
  | start {s : State} : s.freep = 0 → s.core = [] → Run base C s []
  | malloc {s s' : State} {live : List Extent} {sbrk : Sbrk} {nbytes q : Nat} : Run base C s live → Fresh base sbrk → C sbrk → nbytes < 2 ^ 32 →
      Yields (malloc base sbrk nbytes s) (q, s') →
      Run base C s' (if q = 0 then live else ⟨q - HEADER, HEADER * s'.size (q - HEADER)⟩ :: live)
  | free {s s' : State} {live : List Extent} {b : Extent} : Run base C s live → b ∈ live → Yields (free (b.addr + HEADER) s) s' → Run base C s' (live.erase b)
  | write {s s' : State} {live : List Extent} : Run base C s live → Writes live s s' → Run base C s' live

theorem Yields.unique {α : Type} {f : Nat → Option α} {a c : α} (h : Yields f a) (h' : Yields f c) : a = c := by
  obtain ⟨n, hn⟩ := h
  obtain ⟨m, hm⟩ := h'
  have ha := hn (max n m) (le_max_left ..)
  rw [hm (max n m) (le_max_right ..)] at ha
  exact (Option.some.inj ha).symm

theorem Sane.free (h : Sane base s live) (hc : Core base s) (hb : b ∈ live) :
    ∃ s', Yields (Umalloc.free (b.addr + HEADER) s) s' ∧ Sane base s' (live.erase b) ∧ Core base s' := by
  rcases h with ⟨-, -, rfl⟩ | ⟨F, h, -⟩
  · cases hb
  have h' : Heap base s F (b :: live.erase b) :=
    ⟨h.chain, h.base_size, h.freep, h.apart, h.tiled.perm ((List.perm_cons_erase hb).append_left F)⟩
  obtain ⟨s', F', hy, hheap, hcore, -⟩ := free_spec h' hc
  rw [(h'.header hc).1] at hy
  have hc' := hc.congr hcore
  exact ⟨s', hy, .inr ⟨F', hheap, hheap.sorted hc'⟩, hc'⟩

/-- What the program writes is not the allocator's. -/
theorem Sane.write (h : Sane base s live) (hc : Core base s) (hw : Writes live s s') : Sane base s' live := by
  obtain ⟨hfreep, hcore, hw⟩ := hw
  rcases h with ⟨h0, hc0, rfl⟩ | ⟨F, h, hsort⟩
  · exact .inl ⟨hfreep.trans h0, hcore.trans hc0, rfl⟩
  have hdis := h.tiled.disjoint hc
  -- no header is inside a block in use
  have hsame (x : Nat) (hx : x = base ∨ ∃ c ∈ F ++ live, x = c.addr) : s'.ptr x = s.ptr x ∧ s'.size x = s.size x := by
    by_contra hne
    obtain ⟨b, hb, hlo, hhi⟩ := hw x (by tauto)
    rcases hx with rfl | ⟨c, hm, rfl⟩
    · have := (h.tiled.range hc (b := b) (by simp [hb])).1
      omega
    · have hpos := (h.tiled.sizes c hm).2
      have hbc := hdis.forall (List.mem_append_right F hb) hm (by rintro rfl; exact lt_irrefl _ hlo)
      simp only [Extent.Disjoint, stop] at *
      omega
  refine .inr ⟨F, ⟨h.chain.congr fun x hx => (hsame x ?_).1, (hsame base (.inl rfl)).2.trans h.base_size, hfreep ▸ h.freep,
    h.apart, fun b hb => ?_, fun x => hcore ▸ h.tiled.cover x, hcore ▸ h.tiled.total⟩, hsort⟩
  · refine (List.mem_cons.mp hx).imp_right fun hx => ?_
    obtain ⟨c, hm, rfl⟩ := List.mem_map.mp hx
    exact ⟨c, by simp [hm], rfl⟩
  · rw [(hsame b.addr (.inr ⟨b, hb, rfl⟩)).2]
    exact h.tiled.sizes b hb

/-- **The heap is sane in every run in which the memory obtained can be counted**, and every call returns. -/
theorem heap_invariant (hbase : 0 < base) (hr : Run base Small s live) :
    Sane base s live ∧ live.Pairwise Extent.Disjoint ∧ (∀ b ∈ live, ∀ x, b.Has x → ∃ r ∈ s.core, r.Has x) ∧
    (∀ sbrk nbytes, Fresh base sbrk → Small sbrk → nbytes < 2 ^ 32 → ∃ q s', Yields (malloc base sbrk nbytes s) (q, s') ∧
      (q ≠ 0 → HEADER + nbytes ≤ HEADER * s'.size (q - HEADER))) ∧
    ∀ b ∈ live, ∃ s', Yields (free (b.addr + HEADER) s) s' := by
  have hinv : Sane base s live ∧ Core base s := by
    induction hr with
    | start h0 hcore =>
      refine ⟨.inl ⟨h0, hcore, rfl⟩, fun x => ?_, fun r hr => ?_, ?_⟩
      · rw [hcore]
        exact Nat.zero_le 1
      · rw [hcore] at hr
        cases hr
      · rw [hcore]
        decide
    | malloc hr hf hs hn hy ih =>
      obtain ⟨q, s', hy', hc', hres⟩ := malloc_spec hbase hf hs ih.1 ih.2 hn
      cases hy.unique hy'
      refine ⟨?_, hc'⟩
      rcases hres with ⟨rfl, hsane⟩ | ⟨c, rfl, hsz, hsane, -⟩
      · exact hsane
      · rw [if_neg (by have : HEADER = 16 := rfl; omega), Nat.add_sub_cancel, hsz]
        exact hsane
    | free hr hb hy ih =>
      obtain ⟨s', hy', hsane, hc'⟩ := ih.1.free ih.2 hb
      cases hy.unique hy'
      exact ⟨hsane, hc'⟩
    | write hr hw ih => exact ⟨ih.1.write ih.2 hw, ih.2.congr hw.2.1⟩
  obtain ⟨hsane, hc⟩ := hinv
  refine ⟨hsane, ?_, fun b hb x hx => ?_, fun sbrk nbytes hf hs hn => ?_, fun b hb => ?_⟩
  · rcases hsane with ⟨-, -, rfl⟩ | ⟨F, h, -⟩
    · exact List.Pairwise.nil
    · exact (List.pairwise_append.mp (h.tiled.disjoint hc)).2.1
  · rcases hsane with ⟨-, -, rfl⟩ | ⟨F, h, -⟩
    · cases hb
    · exact h.tiled.mem_core (List.mem_append_right F hb) hx
  · obtain ⟨q, s', hy, -, hres⟩ := malloc_spec hbase hf hs hsane hc hn
    refine ⟨q, s', hy, fun hq => ?_⟩
    rcases hres with ⟨h0, -⟩ | ⟨c, rfl, hsz, -, hlen⟩
    · exact absurd h0 hq
    · rw [Nat.add_sub_cancel, hsz]
      exact hlen
  · obtain ⟨s', hy, -⟩ := hsane.free hc hb
    exact ⟨s', hy⟩

/-- Where the memory obtained ends. -/
def top (base : Nat) (s : State) : Nat :=
  match s.core with
  | [] => base + HEADER
  | r :: _ => r.stop

/-- An sbrk that returns the memory behind what it returned last, up to `limit` bytes altogether. -/
def following (base limit : Nat) : Sbrk := fun s n =>
  if HEADER ∣ top base s ∧ base + HEADER ≤ top base s ∧ (∀ r ∈ s.core, r.stop ≤ top base s) ∧ top base s + n < 2 ^ 64 ∧
      total s.core + n < limit then some (top base s)
  else none

theorem following_spec {limit n a : Nat} (h : following base limit s n = some a) : HEADER ∣ a ∧ base + HEADER ≤ a ∧
    (∀ r ∈ s.core, r.stop ≤ a) ∧ a + n < 2 ^ 64 ∧ total s.core + n < limit := by
  unfold following at h
  split at h
  · next hc =>
    cases h
    exact hc
  · cases h

theorem following_fresh {limit : Nat} : Fresh base (following base limit) := fun _ _ _ h =>
  have hc := following_spec h
  ⟨hc.1, hc.2.1, hc.2.2.1, hc.2.2.2.1⟩

/-- A program that asks for 100 bytes. -/
theorem heap_invariant_hundred : ∃ (q : Nat) (s : State), Yields (malloc 16 (following 16 (HEADER * 2 ^ 32)) 100 {}) (q, s) ∧
    (q ≠ 0 → HEADER + 100 ≤ HEADER * s.size (q - HEADER)) ∧
    Sane 16 s (if q = 0 then [] else [⟨q - HEADER, HEADER * s.size (q - HEADER)⟩]) := by
  have hsmall : Small (following 16 (HEADER * 2 ^ 32)) := fun _ _ _ h => (following_spec h).2.2.2.2
  have hstart : Run 16 Small {} [] := .start rfl rfl
  obtain ⟨-, -, -, hmalloc, -⟩ := heap_invariant (by decide) hstart
  obtain ⟨q, s, hy, hlen⟩ := hmalloc _ 100 following_fresh hsmall (by decide)
  exact ⟨q, s, hy, hlen, (heap_invariant (by decide) (hstart.malloc following_fresh hsmall (by decide) hy)).1⟩

/-! ## Too much memory -/

/-- More fuel changes nothing. -/
def Steady {α : Type} (f : Nat → Option α) : Prop := ∀ k r, f k = some r → f (k + 1) = some r

theorem Steady.yields {α : Type} {f : Nat → Option α} (h : Steady f) {k : Nat} {r : α} (hk : f k = some r) : Yields f r := by
  refine ⟨k, fun fuel hf => ?_⟩
  induction fuel, hf using Nat.le_induction with
  | base => exact hk
  | succ n _ ih => exact h n r ih

theorem walk_steady (next : Nat → Nat) (P : Nat → Bool) (a : Nat) : Steady fun k => walk next P k a := by
  intro k r hk
  induction k generalizing a with
  | zero => cases hk
  | succ k ih =>
    dsimp only at hk ⊢
    rw [walk] at hk ⊢
    split
    · next h => rwa [if_pos h] at hk
    · next h =>
      rw [if_neg h] at hk
      exact ih _ hk

theorem free_steady (ap : Nat) (s : State) : Steady (free ap s) := by
  intro k r hk
  obtain ⟨p, hp, hr⟩ := Option.map_eq_some_iff.mp hk
  have hw : walk s.ptr (found s (ap - HEADER)) (k + 1) s.freep = some p := walk_steady _ _ _ k p hp
  unfold free
  dsimp only
  rw [hw]
  exact congrArg some hr

theorem morecore_steady (sbrk : Sbrk) (nu : Nat) (s : State) : Steady (morecore sbrk nu s) := by
  intro k r hk
  unfold morecore at hk ⊢
  dsimp only at hk ⊢
  split
  · next h => rwa [h] at hk
  · next h =>
    rw [h] at hk
    obtain ⟨s', hs', hr⟩ := Option.map_eq_some_iff.mp hk
    rw [free_steady _ _ k s' hs', ← hr]
    rfl

theorem mallocLoop_steady (sbrk : Sbrk) (n prevp p : Nat) (s : State) : Steady fun k => mallocLoop sbrk n k prevp p s := by
  intro k r hk
  induction k generalizing prevp p s with
  | zero => cases hk
  | succ k ih =>
    dsimp only at hk ⊢
    rw [mallocLoop] at hk ⊢
    split
    · next h => rwa [if_pos h] at hk
    · next h =>
      rw [if_neg h] at hk
      split
      · next hp =>
        rw [if_pos hp] at hk
        cases hm : morecore sbrk n s k with
        | none =>
          rw [hm] at hk
          cases hk
        | some t =>
          rw [hm] at hk
          rw [morecore_steady _ _ _ k t hm]
          dsimp only at hk ⊢
          split
          · next h0 => rwa [if_pos h0] at hk
          · next h0 =>
            rw [if_neg h0] at hk
            exact ih _ _ _ hk
      · next hp =>
        rw [if_neg hp] at hk
        exact ih _ _ _ hk

theorem malloc_steady (base : Nat) (sbrk : Sbrk) (nbytes : Nat) (s : State) : Steady (malloc base sbrk nbytes s) :=
  mallocLoop_steady sbrk _ _ _ _

/-- `k` blocks of 2^32 - 1 bytes. -/
def allocate : Nat → State → List Extent → Option (State × List Extent)
  | 0, s, live => some (s, live)
  | k + 1, s, live =>
    match malloc 16 (following 16 (2 ^ 64)) (2 ^ 32 - 1) s 8 with
    | none => none
    | some (q, s) => allocate k s (if q = 0 then live else ⟨q - HEADER, HEADER * s.size (q - HEADER)⟩ :: live)

/-- All blocks are given back. -/
def release : List Extent → State → Option State
  | [], s => some s
  | b :: live, s =>
    match free (b.addr + HEADER) s 8 with
    | none => none
    | some s => release live s

theorem allocate_run {C : Sbrk → Prop} (hC : C (following 16 (2 ^ 64))) : ∀ (k : Nat) {s s' : State} {live live' : List Extent},
    Run 16 C s live → allocate k s live = some (s', live') → Run 16 C s' live'
  | 0, _, _, _, _, hr, h => by
    cases h
    exact hr
  | k + 1, s, _, live, _, hr, h => by
    rw [allocate] at h
    split at h
    · cases h
    · next q t hm => exact allocate_run hC k (hr.malloc following_fresh hC (by decide) ((malloc_steady _ _ _ _).yields hm)) h

theorem release_run {C : Sbrk → Prop} : ∀ (live : List Extent) {s s' : State},
    Run 16 C s live → release live s = some s' → Run 16 C s' []
  | [], _, _, hr, h => by
    cases h
    exact hr
  | b :: live, s, _, hr, h => by
    rw [release] at h
    split at h
    · cases h
    · next t hf =>
      have hr' := hr.free List.mem_cons_self ((free_steady _ _).yields hf)
      rw [List.erase_cons_head] at hr'
      exact release_run live hr' h

/-- All of 16 blocks of 2^32 - 1 bytes are given back, and the free list has one block of 256 bytes. -/
def lost (s : State) : Bool :=
  decide (s.ptr 16 = 32 ∧ s.ptr 32 = 16 ∧ s.size 32 = 16 ∧ s.freep ≠ 0 ∧ total s.core = HEADER * (2 ^ 32 + 16))

/-- **The memory is lost** once its size does not fit in 32 bits. -/
theorem heap_loses_memory : ∃ s : State, Run 16 (fun _ => True) s [] ∧ ¬ Sane 16 s [] := by
  have hany : ((allocate 16 {} []).bind fun t => release t.2 t.1).any lost = true := by decide +kernel
  obtain ⟨s, hs, hl⟩ := (Option.any_eq_true _ _).mp hany
  obtain ⟨t, ht, hs⟩ := Option.bind_eq_some_iff.mp hs
  obtain ⟨hbase, hnext, hsize, hfreep, htotal⟩ := of_decide_eq_true hl
  refine ⟨s, release_run _ (allocate_run trivial 16 (.start rfl rfl) ht) hs, ?_⟩
  rintro (⟨h0, -⟩ | ⟨F, h, -⟩)
  · exact hfreep h0
  · have hchain := h.chain
    cases F with
    | nil => exact absurd (hbase.symm.trans hchain) (by decide)
    | cons b F =>
      obtain ⟨hb, hchain⟩ := hchain
      have hb32 : b.addr = 32 := hb.symm.trans hbase
      cases F with
      | nil =>
        have hlen := (h.tiled.sizes b (by simp)).1
        have htot := h.tiled.total
        rw [htotal] at htot
        rw [hb32, hsize] at hlen
        simp only [List.cons_append, List.nil_append, total_cons, total_nil, ← hlen] at htot
        exact absurd htot (by decide)
      | cons c F =>
        -- a second block would be below the first
        have hc : c.addr = 16 := by rw [← hchain.1, hb32, hnext]
        have hlt := (List.pairwise_cons.mp h.apart).1 c List.mem_cons_self
        unfold stop at hlt
        omega

end Xv6.Umalloc
