/-
The heap: the free list is circular through base and sorted by address, no two free blocks
are adjacent, and free blocks and blocks in use tile the memory obtained from sbrk. free
finds the block before, wherever its search starts, and joins the block with its
neighbours (`free_spec`).
-/
import Xv6.Umalloc.Model

namespace Xv6.Umalloc

open Lib Extent

/-- Blocks, with the sizes in their headers, tile the memory obtained from sbrk. -/
structure Tiled (s : State) (l : List Extent) : Prop where
  sizes : ∀ b ∈ l, HEADER * s.size b.addr = b.len ∧ 0 < b.len
  cover : ∀ x, cover l x = cover s.core x
  total : total l = total s.core

/-- **The heap.** The blocks `free` are on the free list, in the order of their addresses and with no two adjacent; they
and the blocks `live` in use tile the memory. -/
structure Heap (base : Nat) (s : State) (free live : List Extent) : Prop where
  chain : Chain s.ptr base (free.map addr) base
  base_size : s.size base = 0
  freep : s.freep ∈ base :: free.map addr
  apart : free.Pairwise fun b c => b.stop < c.addr
  tiled : Tiled s (free ++ live)

/-- The memory from sbrk: above the static header, never the same twice, and not too much for the size of a block. -/
structure Core (base : Nat) (s : State) : Prop where
  once : ∀ x, cover s.core x ≤ 1
  range : ∀ r ∈ s.core, base + HEADER ≤ r.addr ∧ r.stop < 2 ^ 64
  small : total s.core < HEADER * 2 ^ 32

variable {base n : Nat} {s s' : State} {free live l l' : List Extent} {b c : Extent}

/-! ## Tilings -/

namespace Tiled

theorem perm (h : Tiled s l) (hp : l.Perm l') : Tiled s l' :=
  ⟨fun b hb => h.sizes b (hp.mem_iff.mpr hb), fun x => cover_perm hp ▸ h.cover x, total_perm hp ▸ h.total⟩

theorem congr (h : Tiled s l) (hs : s'.size = s.size) (hc : s'.core = s.core) : Tiled s' l :=
  ⟨hs ▸ h.sizes, hc ▸ h.cover, hc ▸ h.total⟩

theorem mem_core (h : Tiled s l) (hb : b ∈ l) {x : Nat} (hx : b.Has x) : ∃ r ∈ s.core, r.Has x := by
  rw [← cover_pos, ← h.cover]
  exact cover_pos.mpr ⟨b, hb, hx⟩

theorem range (h : Tiled s l) (hc : Core base s) (hb : b ∈ l) :
    base + HEADER ≤ b.addr ∧ b.stop < 2 ^ 64 ∧ b.len < HEADER * 2 ^ 32 := by
  have hpos := (h.sizes b hb).2
  obtain ⟨r, hr, hlo⟩ := h.mem_core hb (x := b.addr) ⟨le_rfl, by unfold stop; omega⟩
  obtain ⟨r', hr', hhi⟩ := h.mem_core hb (x := b.stop - 1) ⟨by unfold stop; omega, by unfold stop; omega⟩
  refine ⟨(hc.range r hr).1.trans hlo.1, ?_, ?_⟩
  · have := (hc.range r' hr').2
    have := hhi.2
    omega
  · exact (h.total ▸ len_le_total hb).trans_lt hc.small

theorem disjoint (h : Tiled s l) (hc : Core base s) : l.Pairwise Extent.Disjoint :=
  pairwise_disjoint (fun b hb => (h.sizes b hb).2) fun x => h.cover x ▸ hc.once x

theorem disjoint_cons (h : Tiled s (b :: l)) (hc : Core base s) (hm : c ∈ l) : b.Disjoint c :=
  (List.pairwise_cons.mp (h.disjoint hc)).1 c hm

/-- The address behind a block, as the code computes it. -/
theorem add_size (h : Tiled s l) (hc : Core base s) (hb : b ∈ l) : add b.addr (s.size b.addr) = b.stop := by
  have := (h.range hc hb).2.1
  rw [add, (h.sizes b hb).1]
  exact Nat.mod_eq_of_lt this

/-- Two blocks that meet are joined. -/
theorem join (h : Tiled s (b :: c :: l)) (hc : Core base s) (hm : b.stop = c.addr)
    (hs : s'.size = Function.update s.size b.addr (u32 (s.size b.addr + s.size c.addr))) (hcore : s'.core = s.core) :
    Tiled s' (⟨b.addr, b.len + c.len⟩ :: l) := by
  have hb := h.sizes b (by simp)
  have hcs := h.sizes c (by simp)
  have hsum : u32 (s.size b.addr + s.size c.addr) = s.size b.addr + s.size c.addr := by
    have := hc.small
    have ht := h.total
    rw [total_cons, total_cons] at ht
    simp only [HEADER] at *
    exact Nat.mod_eq_of_lt (by omega)
  refine ⟨fun d hd => ?_, fun x => ?_, ?_⟩
  · rw [hs]
    rcases List.mem_cons.mp hd with rfl | hd
    · rw [Function.update_self, hsum, Nat.mul_add, hb.1, hcs.1]
      exact ⟨rfl, by dsimp only; omega⟩
    · have hdis := h.disjoint_cons hc (List.mem_cons_of_mem c hd)
      have hds := h.sizes d (by simp [hd])
      rwa [Function.update_of_ne (by rintro he; simp only [Extent.Disjoint, stop] at hdis; omega)]
  · have hx := h.cover x
    have hjoin := cover_join (a := b.addr) (n := b.len) (m := c.len) (x := x)
    have hc' : (⟨b.addr + b.len, c.len⟩ : Extent) = c := by rw [← stop, hm]
    rw [hc', show (⟨b.addr, b.len⟩ : Extent) = b from rfl] at hjoin
    rw [hcore, ← hx]
    simp only [cover_cons, cover_nil] at hjoin ⊢
    omega
  · rw [hcore, ← h.total]
    simp only [total_cons]
    omega

/-- A block is cut in two. -/
theorem cut (h : Tiled s (b :: l)) (hc : Core base s) (hn : 0 < n) (hlt : n < s.size b.addr)
    (hs : s'.size = Function.update (Function.update s.size b.addr (s.size b.addr - n)) (b.stop - HEADER * n) n)
    (hcore : s'.core = s.core) :
    Tiled s' (⟨b.addr, b.len - HEADER * n⟩ :: ⟨b.stop - HEADER * n, HEADER * n⟩ :: l) := by
  have hb := h.sizes b (by simp)
  have hstop : b.stop = b.addr + b.len := rfl
  have hle : HEADER * n < b.len := by
    rw [← hb.1]
    exact Nat.mul_lt_mul_of_pos_left hlt (by decide)
  have hpos : 0 < HEADER * n := Nat.mul_pos (by decide) hn
  refine ⟨fun d hd => ?_, fun x => ?_, ?_⟩
  · rw [hs]
    rcases List.mem_cons.mp hd with rfl | hd
    · dsimp only
      rw [Function.update_of_ne (by omega), Function.update_self, Nat.mul_sub, hb.1]
      omega
    rcases List.mem_cons.mp hd with rfl | hd
    · dsimp only
      rw [Function.update_self]
      exact ⟨rfl, hpos⟩
    · have hdis := h.disjoint_cons hc hd
      have hds := h.sizes d (by simp [hd])
      simp only [Extent.Disjoint, stop] at hdis
      rwa [Function.update_of_ne (by omega), Function.update_of_ne (by omega)]
  · have hjoin := cover_join (a := b.addr) (n := b.len - HEADER * n) (m := HEADER * n) (x := x)
    rw [show b.addr + (b.len - HEADER * n) = b.stop - HEADER * n by omega,
      show b.len - HEADER * n + HEADER * n = b.len by omega, show (⟨b.addr, b.len⟩ : Extent) = b from rfl] at hjoin
    rw [hcore, ← h.cover x]
    simp only [cover_cons, cover_nil] at hjoin ⊢
    omega
  · rw [hcore, ← h.total]
    simp only [total_cons]
    omega

end Tiled

/-- The nodes of the free list are in order, base first. -/
theorem Heap.sorted (h : Heap base s free live) (hc : Core base s) : (base :: free.map addr).Pairwise (· < ·) := by
  refine List.pairwise_cons.mpr ⟨fun a ha => ?_, List.pairwise_map.mpr (h.apart.imp fun {b c} hbc => ?_)⟩
  · obtain ⟨b, hb, rfl⟩ := List.mem_map.mp ha
    have := (h.tiled.range hc (List.mem_append_left live hb)).1
    have hH : HEADER = 16 := rfl
    omega
  · unfold stop at hbc
    omega

/-! ## free -/

/-- The free blocks before and behind a block in use. -/
theorem Heap.split (h : Heap base s free (b :: live)) (hc : Core base s) : ∃ L R, free = L ++ R ∧
    (∀ c ∈ L, c.stop ≤ b.addr) ∧ ∀ c ∈ R, b.stop ≤ c.addr := by
  have hdis (c : Extent) (hcf : c ∈ free) : c.Disjoint b :=
    (List.pairwise_append.mp (h.tiled.disjoint hc)).2.2 c hcf b List.mem_cons_self
  have hpos (c : Extent) (hcf : c ∈ free) := (h.tiled.sizes c (List.mem_append_left _ hcf)).2
  have hb := (h.tiled.sizes b (by simp)).2
  have hap := h.apart
  clear h
  induction free with
  | nil => exact ⟨[], [], rfl, by simp, by simp⟩
  | cons c free ih =>
    obtain ⟨hcs, hap⟩ := List.pairwise_cons.mp hap
    rcases hdis c List.mem_cons_self with hlt | hge
    · obtain ⟨L, R, rfl, hL, hR⟩ := ih (fun d hd => hdis d (by simp [hd])) (fun d hd => hpos d (by simp [hd])) hap
      refine ⟨c :: L, R, rfl, fun d hd => ?_, hR⟩
      rcases List.mem_cons.mp hd with rfl | hd
      · exact hlt
      · exact hL d hd
    · refine ⟨[], c :: free, rfl, by simp, fun d hd => ?_⟩
      rcases List.mem_cons.mp hd with rfl | hd
      · exact hge
      · have := hcs d hd
        have := hpos c List.mem_cons_self
        unfold stop at *
        omega

section Free

variable {L R : List Extent} (h : Heap base s (L ++ R) (b :: live)) (hc : Core base s)
  (hL : ∀ c ∈ L, c.stop ≤ b.addr) (hR : ∀ c ∈ R, b.stop ≤ c.addr)

include h

/-- The chain up to the block before, and behind it. -/
theorem Heap.chain_split : Chain s.ptr base (L.map addr) ((R.map addr).headD base) ∧
    Chain s.ptr ((L.map addr).getLastD base) (R.map addr) base := by
  have hchain := h.chain
  rw [List.map_append] at hchain
  refine ⟨?_, ?_⟩
  · cases R with
    | nil => simpa using hchain
    | cons r R => exact (Chain.append_iff.mp hchain).1
  · rcases L.eq_nil_or_concat with rfl | ⟨L, l, rfl⟩
    · exact hchain
    · have he : base :: ((L.concat l).map addr ++ R.map addr) = (base :: L.map addr) ++ l.addr :: R.map addr := by simp
      have hlast : ((L.concat l).map addr).getLastD base = l.addr := by simp [List.getLastD_eq_getLast?]
      rw [hlast]
      exact hchain.behind he

include hc hL hR

/-- **The search ends at the block before**, wherever it starts. -/
theorem Heap.walk_found : ∃ n, ∀ fuel ≥ n, walk s.ptr (found s b.addr) fuel s.freep = some ((L.map addr).getLastD base) := by
  have hb := h.tiled.range hc (b := b) (by simp)
  have hpos := (h.tiled.sizes b (by simp)).2
  have hH : HEADER = 16 := rfl
  have hbase : base < b.addr := by omega
  obtain ⟨hchainL, hchainR⟩ := h.chain_split
  have hsorted := h.sorted hc
  rw [List.map_append, ← List.cons_append] at hsorted
  obtain ⟨hsortL, hsortR, -⟩ := List.pairwise_append.mp hsorted
  have hlt (x : Nat) (hx : x ∈ base :: L.map addr) : x < b.addr := by
    rcases List.mem_cons.mp hx with rfl | hx
    · exact hbase
    · obtain ⟨c, hcL, rfl⟩ := List.mem_map.mp hx
      have := hL c hcL
      have := (h.tiled.sizes c (by simp [hcL])).2
      unfold stop at *
      omega
  have hgt (x : Nat) (hx : x ∈ R.map addr) : b.addr < x := by
    obtain ⟨c, hcR, rfl⟩ := List.mem_map.mp hx
    have := hR c hcR
    unfold stop at *
    omega
  -- before the block it belongs behind, the next is still below
  have hpassL (x : Nat) (hx : x ∈ (base :: L.map addr).dropLast) : found s b.addr x = false := by
    obtain ⟨hmem, hnext⟩ := hchainL.next_of_pairwise hsortL hx
    have := hlt _ (List.mem_cons_of_mem base hmem)
    simp only [found, Bool.or_eq_false_iff, decide_eq_false_iff_not]
    omega
  have hpassR (x : Nat) (hx : x ∈ R.map addr) : found s b.addr x = false := by
    have hx' := hgt x hx
    have hnext : s.ptr x = base ∨ x < s.ptr x := by
      obtain ⟨r, R', hR'⟩ := List.exists_cons_of_ne_nil (List.ne_nil_of_mem hx)
      rw [hR'] at hx hchainR hsortR
      by_cases hlast : x = R'.getLastD r
      · exact .inl (hlast ▸ hchainR.2.last)
      · exact .inr (hchainR.2.next_of_pairwise hsortR (List.mem_dropLast_of_mem_of_ne_getLastD (d := r) hx (by rwa [List.getLastD_cons]))).2
    simp only [found, Bool.or_eq_false_iff, decide_eq_false_iff_not]
    omega
  have hpred : found s b.addr ((L.map addr).getLastD base) = true := by
    have hp := hlt _ List.getLastD_mem_cons
    have hnext := hchainL.last
    simp only [found, Bool.or_eq_true, decide_eq_true_eq]
    cases R with
    | nil =>
      have hle : base ≤ (L.map addr).getLastD base := by
        rcases List.mem_cons.mp (List.getLastD_mem_cons (l := L.map addr) (a := base)) with he | hm
        · exact he.ge
        · exact ((List.pairwise_cons.mp hsortL).1 _ hm).le
      simp only [List.map_nil, List.headD_nil] at hnext
      omega
    | cons r R =>
      have := hgt r.addr (by simp)
      simp only [List.map_cons, List.headD_cons] at hnext
      omega
  have hmem := h.freep
  rw [List.map_append, ← List.cons_append, List.mem_append] at hmem
  rcases hmem with hmem | hmem
  · obtain ⟨X, Y, he⟩ := List.append_of_mem hmem
    have hlast := getLastD_of_append he
    have hfound := (hchainL.behind he).walk_found (P := found s b.addr)
      (fun x hx => hpassL x (by rw [he, List.dropLast_append_of_ne_nil (List.cons_ne_nil _ _)]; simp [hx])) (hlast ▸ hpred)
    refine ⟨Y.length + 1, fun fuel hf => ?_⟩
    rw [← Nat.sub_add_cancel hf, hfound, hlast]
  · -- first on to the end of the list, then from base
    obtain ⟨X, Y, he⟩ := List.append_of_mem hmem
    have hpass := (hchainR.behind (show _ :: R.map addr = (_ :: X) ++ s.freep :: Y by rw [he]; rfl)).walk_pass
      (P := found s b.addr) fun x hx => hpassR x (by rw [he]; exact List.mem_append_right X hx)
    refine ⟨L.length + 1 + (Y.length + 1), fun fuel hf => ?_⟩
    have hfuel : fuel = fuel - (L.length + 1 + (Y.length + 1)) + (L.length + 1) + (Y.length + 1) := by omega
    have hfound := hchainL.walk_found hpassL hpred (fuel - (L.length + 1 + (Y.length + 1)))
    rw [List.length_map] at hfound
    rw [hfuel, hpass, hfound]

end Free

/-- A block that is linked to the free blocks behind it, while the one before is not yet linked to it. -/
structure Detached (base : Nat) (s : State) (L : List Extent) (b : Extent) (R live : List Extent) : Prop where
  before : ∃ q, Chain s.ptr base (L.map addr) q
  behind : Chain s.ptr b.addr (R.map addr) base
  base_size : s.size base = 0
  apartL : L.Pairwise fun b c => b.stop < c.addr
  apartR : (b :: R).Pairwise fun b c => b.stop < c.addr
  le : ∀ c ∈ L, c.stop ≤ b.addr
  lt : ∀ c ∈ L, ∀ d ∈ R, c.stop < d.addr
  tiled : Tiled s (b :: (L ++ R ++ live))

theorem joinNext_spec {L R : List Extent} (h : Heap base s (L ++ R) (b :: live)) (hc : Core base s)
    (hL : ∀ c ∈ L, c.stop ≤ b.addr) (hR : ∀ c ∈ R, b.stop ≤ c.addr) :
    ∃ b' R', Detached base (joinNext b.addr ((L.map addr).getLastD base) s) L b' R' live ∧ b'.addr = b.addr ∧ b.len ≤ b'.len ∧
      (joinNext b.addr ((L.map addr).getLastD base) s).core = s.core := by
  obtain ⟨hchainL, hchainR⟩ := h.chain_split
  obtain ⟨hapL, hapR, hapLR⟩ := List.pairwise_append.mp h.apart
  have htile : Tiled s (b :: (L ++ R ++ live)) := h.tiled.perm List.perm_middle
  have hnext := hchainL.last
  have hadd := htile.add_size hc List.mem_cons_self
  have hb := htile.range hc List.mem_cons_self
  have hpos := (htile.sizes b List.mem_cons_self).2
  have hH : HEADER = 16 := rfl
  have hstop : b.stop = b.addr + b.len := rfl
  have hne (c : Extent) (hm : c ∈ L ++ R ++ live) : c.addr ≠ b.addr := by
    have hdis := htile.disjoint_cons hc hm
    have := (htile.sizes c (List.mem_cons_of_mem b hm)).2
    simp only [Extent.Disjoint, stop] at hdis
    omega
  have hptr (v : Nat) : ∃ q, Chain (Function.update s.ptr b.addr v) base (L.map addr) q :=
    ⟨_, hchainL.congr fun x hx => by
      refine Function.update_of_ne ?_ ..
      rcases List.mem_cons.mp hx with rfl | hx
      · omega
      · obtain ⟨c, hm, rfl⟩ := List.mem_map.mp hx
        exact hne c (by simp [hm])⟩
  unfold joinNext
  rw [hadd, hnext]
  cases R with
  | nil =>
    rw [List.map_nil, List.headD_nil, if_neg (by omega)]
    refine ⟨b, [], ⟨hptr base, Function.update_self .., h.base_size, hapL, List.pairwise_singleton .., hL, by simp, ?_⟩, rfl,
      le_rfl, rfl⟩
    exact htile.congr rfl rfl
  | cons r R =>
    rw [List.map_cons, List.headD_cons]
    have hlt : ∀ c ∈ L, ∀ d ∈ R, c.stop < d.addr := fun c hm d hd => hapLR c hm d (List.mem_cons_of_mem r hd)
    have hrest (v : Nat) (x : Nat) (hx : x ∈ R.map addr) : Function.update s.ptr b.addr v x = s.ptr x := by
      obtain ⟨c, hm, rfl⟩ := List.mem_map.mp hx
      exact Function.update_of_ne (hne c (by simp [hm])) ..
    by_cases hm : b.stop = r.addr
    · rw [if_pos hm]
      have hjoin : Tiled s (b :: r :: (L ++ R ++ live)) := htile.perm (by simp)
      refine ⟨⟨b.addr, b.len + r.len⟩, R, ⟨hptr _, hchainR.2.rehead (Function.update_self ..) (hrest _), ?_, hapL, ?_, hL, hlt,
        hjoin.join hc hm rfl rfl⟩, rfl, Nat.le_add_right .., rfl⟩
      · dsimp only
        rw [Function.update_of_ne (by omega)]
        exact h.base_size
      · refine List.pairwise_cons.mpr ⟨fun d hd => ?_, (List.pairwise_cons.mp hapR).2⟩
        have := (List.pairwise_cons.mp hapR).1 d hd
        simp only [stop] at *
        omega
    · rw [if_neg hm]
      have hlt' : b.stop < r.addr := lt_of_le_of_ne (hR r List.mem_cons_self) hm
      have hr := (htile.sizes r (by simp)).2
      refine ⟨b, r :: R, ⟨hptr _, ⟨Function.update_self .., hchainR.2.congr fun x hx => ?_⟩, h.base_size, hapL, ?_, hL, hapLR,
        htile.congr rfl rfl⟩, rfl, le_rfl, rfl⟩
      · rcases List.mem_cons.mp hx with rfl | hx
        · exact Function.update_of_ne (hne r (by simp)) ..
        · exact hrest _ x hx
      · refine List.pairwise_cons.mpr ⟨fun d hd => ?_, hapR⟩
        rcases List.mem_cons.mp hd with rfl | hd
        · exact hlt'
        · have := (List.pairwise_cons.mp hapR).1 d hd
          simp only [stop] at *
          omega

theorem joinPrev_spec {L R : List Extent} (h : Detached base s L b R live) (hc : Core base s) :
    ∃ F, Heap base { joinPrev b.addr ((L.map addr).getLastD base) s with freep := (L.map addr).getLastD base } F live ∧
      (∃ c ∈ F, b.len ≤ c.len) ∧ (joinPrev b.addr ((L.map addr).getLastD base) s).core = s.core := by
  have hb := h.tiled.range hc List.mem_cons_self
  have hpos := (h.tiled.sizes b List.mem_cons_self).2
  have hH : HEADER = 16 := rfl
  have hstop : b.stop = b.addr + b.len := rfl
  have habove (c : Extent) (hm : c ∈ b :: (L ++ R ++ live)) : base < c.addr := by
    have := (h.tiled.range hc hm).1
    omega
  unfold joinPrev
  rcases L.eq_nil_or_concat with rfl | ⟨L, l, rfl⟩
  · -- the static header has no block to join
    have hadd : add base (s.size base) = base := by
      rw [h.base_size]
      exact Nat.mod_eq_of_lt (by omega)
    rw [List.map_nil, List.getLastD_nil, hadd, if_neg (by omega)]
    refine ⟨b :: R, ⟨⟨Function.update_self .., h.behind.congr fun x hx => ?_⟩, h.base_size, List.mem_cons_self, h.apartR,
      h.tiled.congr rfl rfl⟩, ⟨b, List.mem_cons_self, le_rfl⟩, rfl⟩
    refine Function.update_of_ne ?_ ..
    rw [← List.map_cons, List.mem_map] at hx
    obtain ⟨c, hm, rfl⟩ := hx
    exact (habove c (List.mem_append_left live hm)).ne'
  · rw [List.concat_eq_append] at h ⊢
    have htile : Tiled s (l :: b :: (L ++ R ++ live)) := h.tiled.perm <| List.perm_iff_count.mpr fun a => by
      simp only [List.count_append, List.count_cons, List.count_nil]
      omega
    have hlast : ((L ++ [l]).map addr).getLastD base = l.addr := by simp [List.getLastD_eq_getLast?]
    have hl := (htile.sizes l List.mem_cons_self).2
    have hne (c : Extent) (hm : c ∈ b :: (L ++ R ++ live)) : c.addr ≠ l.addr := by
      have hdis := htile.disjoint_cons hc hm
      have := (htile.sizes c (List.mem_cons_of_mem l hm)).2
      simp only [Extent.Disjoint, stop] at hdis
      omega
    have hbase : base ≠ l.addr := (habove l (by simp)).ne
    have hbefore (v : Nat) : Chain (Function.update s.ptr l.addr v) base (L.map addr) l.addr := by
      obtain ⟨q, hq⟩ := h.before
      rw [List.map_append, List.map_singleton] at hq
      refine (Chain.append_iff.mp hq).1.congr fun x hx => Function.update_of_ne ?_ ..
      rcases List.mem_cons.mp hx with rfl | hx
      · exact hbase
      · obtain ⟨c, hm, rfl⟩ := List.mem_map.mp hx
        exact hne c (by simp [hm])
    have hrest (v : Nat) (x : Nat) (hx : x ∈ (b :: R).map addr) : Function.update s.ptr l.addr v x = s.ptr x := by
      obtain ⟨c, hm, rfl⟩ := List.mem_map.mp hx
      exact Function.update_of_ne (hne c (by rcases List.mem_cons.mp hm with rfl | hm <;> simp [*])) ..
    obtain ⟨hapL, -, hapl⟩ := List.pairwise_append.mp h.apartL
    obtain ⟨hapb, hapR⟩ := List.pairwise_cons.mp h.apartR
    have hlR : ∀ d ∈ R, l.stop < d.addr := h.lt l (by simp)
    rw [hlast, htile.add_size hc List.mem_cons_self]
    by_cases hm : l.stop = b.addr
    · rw [if_pos hm]
      refine ⟨L ++ ⟨l.addr, l.len + b.len⟩ :: R, ⟨?_, ?_, by simp, ?_, ?_⟩, ⟨_, List.mem_append_right L List.mem_cons_self, Nat.le_add_left ..⟩, rfl⟩
      · rw [List.map_append, List.map_cons]
        exact Chain.append_iff.mpr ⟨hbefore _, h.behind.rehead (Function.update_self ..) fun x hx => hrest _ x (by simp [hx])⟩
      · dsimp only
        rw [Function.update_of_ne hbase]
        exact h.base_size
      · refine List.pairwise_append.mpr ⟨hapL, List.pairwise_cons.mpr ⟨fun d hd => ?_, hapR⟩, fun c hcL d hd => ?_⟩
        · have := hapb d hd
          simp only [stop] at *
          omega
        · rcases List.mem_cons.mp hd with rfl | hd
          · exact hapl c hcL l (by simp)
          · exact h.lt c (by simp [hcL]) d hd
      · refine Tiled.perm (htile.join hc hm rfl rfl) (List.perm_iff_count.mpr fun a => ?_)
        simp only [List.count_append, List.count_cons]
        omega
    · rw [if_neg hm]
      have hlb : l.stop < b.addr := lt_of_le_of_ne (h.le l (by simp)) hm
      refine ⟨L ++ l :: b :: R, ⟨?_, h.base_size, by simp, ?_, ?_⟩, ⟨b, by simp, le_rfl⟩, rfl⟩
      · rw [List.map_append, List.map_cons, List.map_cons]
        exact Chain.append_iff.mpr ⟨hbefore _, Function.update_self .., h.behind.congr fun x hx => hrest _ x (by simpa using hx)⟩
      · refine List.pairwise_append.mpr ⟨hapL, List.pairwise_cons.mpr ⟨fun d hd => ?_, h.apartR⟩, fun c hcL d hd => ?_⟩
        · rcases List.mem_cons.mp hd with rfl | hd
          · exact hlb
          · exact hlR d hd
        · have hcl := hapl c hcL l (by simp)
          rcases List.mem_cons.mp hd with rfl | hd
          · exact hcl
          rcases List.mem_cons.mp hd with rfl | hd
          · simp only [stop] at *
            omega
          · exact h.lt c (by simp [hcL]) d hd
      · refine (htile.perm (List.perm_iff_count.mpr fun a => ?_)).congr rfl rfl
        simp only [List.count_append, List.count_cons]
        omega

/-- **free** puts a block in use on the free list. -/
theorem free_spec (h : Heap base s free (b :: live)) (hc : Core base s) : ∃ s' free',
    Yields (Umalloc.free (add b.addr 1) s) s' ∧ Heap base s' free' live ∧ s'.core = s.core ∧ ∃ c ∈ free', b.len ≤ c.len := by
  obtain ⟨L, R, rfl, hL, hR⟩ := h.split hc
  obtain ⟨b', R', hdet, haddr, hlen, hcore⟩ := joinNext_spec h hc hL hR
  obtain ⟨F, hheap, ⟨c, hcF, hcl⟩, hcore'⟩ := joinPrev_spec hdet ⟨hcore ▸ hc.once, hcore ▸ hc.range, hcore ▸ hc.small⟩
  rw [haddr] at hheap hcore'
  refine ⟨_, F, ?_, hheap, hcore'.trans hcore, c, hcF, hlen.trans hcl⟩
  obtain ⟨n, hn⟩ := h.walk_found hc hL hR
  refine ⟨n, fun fuel hf => ?_⟩
  have hbp : add b.addr 1 - HEADER = b.addr := by
    obtain ⟨-, hb, -⟩ := h.tiled.range hc (b := b) (by simp)
    obtain ⟨hsize, hpos⟩ := h.tiled.sizes b (by simp)
    have hone : 1 ≤ s.size b.addr := Nat.pos_of_ne_zero fun h0 => by simp [h0] at hsize; omega
    simp only [add, u64, HEADER, stop] at *
    omega
  rw [Umalloc.free, hbp, hn fuel hf]
  rfl

end Xv6.Umalloc
