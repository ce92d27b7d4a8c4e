/-
Path names. A path is a list of elements, the parts between slashes that are not empty,
each cut to DIRSIZ bytes; namex starts at the root or the current directory and looks the
elements up one by one (`walk`). Whatever it finds, it gives back every reference but
that to the inode it returns.
-/
import Xv6.Fs.Refs

namespace Xv6.Fs

open Lib

/-! ## Elements -/

/-- The parts of a string between slashes, without the empty ones. -/
def parts (path : List UInt8) : List (List UInt8) := ((path.takeWhile (· ≠ 0)).splitOn slash).filter (· ≠ [])

/-- **The elements of a path.** -/
def elements (path : List UInt8) : List (List UInt8) := (parts path).map (·.take DIRSIZ)

theorem parts_slash (path : List UInt8) : parts (slash :: path) = parts path := by
  have hne : slash ≠ 0 := by decide
  simp [parts, List.splitOn, List.splitOnP_cons_eq_if_modifyHead, hne]

theorem parts_dropWhile (path : List UInt8) : parts (path.dropWhile (· = slash)) = parts path := by
  induction path with
  | nil => rfl
  | cons c path ih =>
    by_cases hc : c = slash
    · subst hc
      rw [List.dropWhile_cons_of_pos (by simp), ih, parts_slash]
    · rw [List.dropWhile_cons_of_neg (by simpa using hc)]

theorem parts_end {path : List UInt8} (h : char path 0 = 0) : parts path = [] := by
  cases path with
  | nil => simp [parts, List.splitOn]
  | cons c path =>
    have hc : c = 0 := h
    simp [parts, List.splitOn, hc]

/-- What stands behind an element: the end of the path or a slash. -/
theorem char_drop_takeWhile (path : List UInt8) :
    char (path.drop (path.takeWhile fun c => c ≠ slash ∧ c ≠ 0).length) 0 = 0 ∨
      ∃ r, path.drop (path.takeWhile fun c => c ≠ slash ∧ c ≠ 0).length = slash :: r := by
  induction path with
  | nil => exact .inl rfl
  | cons c path ih =>
    by_cases hc : c ≠ slash ∧ c ≠ 0
    · rw [List.takeWhile_cons_of_pos (by simpa using hc), List.length_cons, List.drop_succ_cons]
      exact ih
    · rw [List.takeWhile_cons_of_neg (by simpa using hc), List.length_nil, List.drop_zero]
      by_cases hs : c = slash
      · exact .inr ⟨path, by rw [hs]⟩
      · exact .inl (by simpa [char, hs] using hc)

/-- The first part, and the rest. -/
theorem parts_cons {path : List UInt8} (h0 : char path 0 ≠ 0) (hs : char path 0 ≠ slash) :
    parts path = path.takeWhile (fun c => c ≠ slash ∧ c ≠ 0) ::
      parts (path.drop (path.takeWhile fun c => c ≠ slash ∧ c ≠ 0).length) := by
  have hdrop : path = path.takeWhile (fun c => c ≠ slash ∧ c ≠ 0) ++
      path.drop (path.takeWhile fun c => c ≠ slash ∧ c ≠ 0).length :=
    (List.prefix_iff_eq_append.mp (List.takeWhile_prefix _)).symm
  have hrest := char_drop_takeWhile path
  have helem : ∀ c ∈ path.takeWhile (fun c => c ≠ slash ∧ c ≠ 0), c ≠ slash ∧ c ≠ 0 := fun c hc => by
    simpa using List.mem_takeWhile_imp hc
  have hne : path.takeWhile (fun c => c ≠ slash ∧ c ≠ 0) ≠ [] := by
    cases path with
    | nil => exact absurd rfl h0
    | cons c path => simp [show c ≠ slash from hs, show c ≠ 0 from h0]
  generalize path.takeWhile (fun c => c ≠ slash ∧ c ≠ 0) = e at *
  generalize path.drop e.length = r at *
  have hsplit : path.takeWhile (· ≠ 0) = e ++ r.takeWhile (· ≠ 0) := by
    rw [hdrop, List.takeWhile_append_of_pos fun c hc => by simpa using (helem c hc).2]
  rcases hrest with hr | ⟨r', rfl⟩
  · have hr' : r.takeWhile (· ≠ 0) = [] := by
      cases r with
      | nil => rfl
      | cons c r => simp [show c = 0 from hr]
    rw [parts_end hr, parts, hsplit, hr', List.append_nil, List.splitOn,
      List.splitOnP_eq_singleton fun c hc => by simpa using (helem c hc).1]
    simp [hne]
  · rw [parts_slash, parts, hsplit, List.takeWhile_cons_of_pos (by decide), List.splitOn,
      List.splitOnP_append_cons_of_forall_mem (fun c hc => by simpa using (helem c hc).1) _ (by simp)]
    simp [hne, parts, List.splitOn]

theorem key_eq_take {e : List UInt8} (h : ∀ c ∈ e, c ≠ 0) : key e = e.take DIRSIZ := by
  rw [key, List.takeWhile_eq_self_iff.mpr fun c hc => by simpa using h c hc]

theorem char_dropWhile (path : List UInt8) : char (path.dropWhile (· = slash)) 0 ≠ slash := by
  induction path with
  | nil => decide
  | cons c path ih =>
    by_cases hc : c = slash
    · rwa [List.dropWhile_cons_of_pos (by simpa using hc)]
    · rw [List.dropWhile_cons_of_neg (by simpa using hc)]
      exact hc

/-- Only the end of a path has no element. -/
theorem elements_nil_iff {path : List UInt8} (hs : char path 0 ≠ slash) : char path 0 = 0 ↔ elements path = [] := by
  constructor
  · intro h
    rw [elements, parts_end h]
    rfl
  · intro h
    by_contra h0
    rw [elements, parts_cons h0 hs] at h
    cases h

/-- The name skipelem leaves in the buffer. -/
theorem key_name {e : List UInt8} (name : List UInt8) (h : ∀ c ∈ e, c ≠ 0) :
    key (if e.length ≥ DIRSIZ then e.take DIRSIZ else e ++ 0 :: name.drop (e.length + 1)) = e.take DIRSIZ := by
  split
  · rw [key_eq_take fun c hc => h c (List.mem_of_mem_take hc), List.take_take, min_self]
  · rw [key, List.takeWhile_append_of_pos fun c hc => by simpa using h c hc, List.takeWhile_cons_of_neg (by simp),
      List.append_nil]

/-- **skipelem** copies the first element; with none it stops. -/
theorem skipelem_spec (path name : List UInt8) : match skipelem path name with
    | none => elements path = []
    | some (path', name') => elements path = key name' :: elements path' ∧ path'.length < path.length ∧
        (char path' 0 = 0 ↔ elements path' = []) := by
  have hparts := parts_dropWhile path
  have hs := char_dropWhile path
  have hlen : (path.dropWhile (· = slash)).length ≤ path.length := (List.dropWhile_sublist _).length_le
  unfold skipelem
  generalize path.dropWhile (· = slash) = p at *
  dsimp only
  by_cases h0 : char p 0 = 0
  · rw [if_pos h0]
    rw [elements, ← hparts, parts_end h0]
    rfl
  · rw [if_neg h0]
    have hcons := parts_cons h0 hs
    have helem : ∀ c ∈ p.takeWhile (fun c => c ≠ slash ∧ c ≠ 0), c ≠ 0 := fun c hc => by
      have := List.mem_takeWhile_imp hc
      simp only [ne_eq, decide_eq_true_eq] at this
      exact this.2
    have hpos : 0 < (p.takeWhile fun c => c ≠ slash ∧ c ≠ 0).length := by
      cases p with
      | nil => exact absurd rfl h0
      | cons c p => simp [show c ≠ slash from hs, show c ≠ 0 from h0]
    have hplen : 0 < p.length := by
      have := (List.takeWhile_sublist (l := p) fun c => decide (c ≠ slash ∧ c ≠ 0)).length_le
      omega
    refine ⟨?_, ?_, elements_nil_iff (char_dropWhile _)⟩
    · rw [key_name name helem, elements, ← hparts, hcons, elements, parts_dropWhile]
      rfl
    · have := (List.dropWhile_sublist (l := p.drop (p.takeWhile fun c => c ≠ slash ∧ c ≠ 0).length)
        fun c => decide (c = slash)).length_le
      rw [List.length_drop] at this
      omega

theorem key_key (name : List UInt8) : key (key name) = key name := by
  refine (key_eq_take fun c hc => ?_).trans (by rw [key, List.take_take, min_self])
  have := List.mem_takeWhile_imp (List.mem_of_mem_take hc)
  simpa using this

/-! ## Looking up -/

namespace State

/-- A name looked up in inode `i`, which has to be a directory. -/
def lookup (s : State) (i : Nat) (name : List UInt8) : Option Nat :=
  if (s.dinode i).type = T_DIR then s.names i name else none

/-- **Elements looked up in turn**, from inode `i` on. -/
def walk (s : State) : Nat → List (List UInt8) → Option Nat
  | i, [] => some i
  | i, e :: es => (s.lookup i e).bind fun j => s.walk j es

/-- What namex is to find: the inode the elements lead to, or the directory that all but the last lead to. -/
def find (s : State) (nameiparent : Bool) (i : Nat) (es : List (List UInt8)) : Option Nat :=
  if nameiparent then
    if es = [] then none
    else (s.walk i es.dropLast).bind fun d => if (s.dinode d).type = T_DIR then some d else none
  else s.walk i es

/-- On the way through `es` is a free inode. -/
def Dangles (s : State) (i : Nat) (es : List (List UInt8)) : Prop :=
  ∃ es₁ es₂ j, es = es₁ ++ es₂ ∧ es₂ ≠ [] ∧ s.walk i es₁ = some j ∧ (s.dinode j).type = 0

/-- **Between calls**: the account of the blocks is exact, no inode is locked, who is referred to is allocated, an inode
without links is referred to, and directories have whole entries. -/
structure Quiet (s : State) : Prop where
  consistent : s.Consistent
  unlocked : ∀ kp, (s.itable kp).locked = false
  typed : ∀ kp i, s.At kp i → i < s.sb.ninodes ∧ (s.dinode i).type ≠ 0
  linked : ∀ i < s.sb.ninodes, (s.dinode i).type ≠ 0 → (s.dinode i).nlink = 0 → 0 < s.refs i
  directory : ∀ i < s.sb.ninodes, (s.dinode i).type = T_DIR → Directory (s.contents i) ∧
    ∀ name j, some (name, j) ∈ slots (s.contents i) → j < s.sb.ninodes
  root : ROOTINO < s.sb.ninodes

end State

variable {s s' s₀ : State} {ip jp : Fin NINODE} {i j : Nat} {H : Multiset Nat} {L : Finset (Fin NINODE)} {path name : List UInt8}
  {es : List (List UInt8)} {e : List UInt8}

theorem State.Quiet.lookup_lt (h : s.Quiet) (hi : i < s.sb.ninodes) (hl : s.lookup i e = some j) : j < s.sb.ninodes := by
  unfold State.lookup at hl
  split at hl
  · next ht =>
    obtain ⟨hdir, hlt⟩ := h.directory i hi ht
    exact hlt _ j ((Slots.lookup_some hdir.distinct).mp hl)
  · cases hl

theorem State.find_cons (s : State) (par : Bool) (i : Nat) (e : List UInt8) (hes : par = false ∨ es ≠ []) :
    s.find par i (e :: es) = (s.lookup i e).bind fun j => s.find par j es := by
  cases par with
  | false => rfl
  | true =>
    have hne : es ≠ [] := by simpa using hes
    simp only [State.find, if_true, List.dropLast_cons_of_ne_nil hne, State.walk, reduceCtorEq, if_false, if_neg hne,
      Option.bind_assoc]

theorem State.find_of_not_dir {par : Bool} (ht : (s.dinode i).type ≠ T_DIR) (hes : es ≠ []) : s.find par i es = none := by
  cases es with
  | nil => exact absurd rfl hes
  | cons e es =>
    have hlook : s.lookup i e = none := if_neg ht
    by_cases hp : par = false ∨ es ≠ []
    · rw [State.find_cons s par i e hp, hlook]
      rfl
    · rw [not_or, Bool.not_eq_false, ne_eq, not_not] at hp
      rw [hp.1, hp.2]
      simp [State.find, State.walk, ht]

theorem State.Dangles.cons (h : s.Dangles j es) (hl : s.lookup i e = some j) : s.Dangles i (e :: es) := by
  obtain ⟨es₁, es₂, k, rfl, hne, hw, ht⟩ := h
  exact ⟨e :: es₁, es₂, k, rfl, hne, by rw [State.walk, hl]; exact hw, ht⟩

/-- What namex leaves. -/
def Found (s₀ : State) (par : Bool) (i : Nat) (es : List (List UInt8)) : Option (Fin NINODE × List UInt8) → State → Prop
  | none, s' => Lent s₀ s' 0 ∅ ∧ s₀.find par i es = none
  | some (jp, name), s' => ∃ j, s₀.find par i es = some j ∧ Lent s₀ s' {j} ∅ ∧ s'.At jp j ∧ j < s₀.sb.ninodes ∧
      (par = true → es.getLast? = some (key name))

/-- Why it may not return. -/
def Lost (s₀ : State) (i : Nat) (es : List (List UInt8)) (msg : String) : Prop :=
  msg = "iget: no inodes" ∧ s₀.spare < 2 ∨ msg = "ilock: no type" ∧ s₀.Dangles i es

theorem Lent.dirAt (h : Lent s₀ s H L) (hq : s₀.Quiet) (ha : s.At ip i) (hh : s.Holds ip)
    (hd : (s.itable ip).d = s₀.dinode i) (hi : i < s₀.sb.ninodes) (ht : (s₀.dinode i).type = T_DIR) :
    DirAt s ip (s₀.contents i) where
  consistent := h.same.consistent hq.consistent
  holds := hh
  type := by rw [hd, ht]
  contents := by rw [ha.inum, h.same.contents hq.consistent.keyed]
  whole := (hq.directory i hi ht).1.whole

/-- The rest of the way, behind an element that is found. -/
theorem Found.cons {par : Bool} {r : Option (Fin NINODE × List UInt8)} (h : Found s₀ par j es r s')
    (hl : s₀.lookup i e = some j) (hfind : s₀.find par i (e :: es) = (s₀.lookup i e).bind fun j => s₀.find par j es) :
    Found s₀ par i (e :: es) r s' := by
  rw [hl, Option.bind_some] at hfind
  cases r with
  | none => exact ⟨h.1, hfind.trans h.2⟩
  | some r =>
    obtain ⟨k, hk, hlent, hat, hlt, hlast⟩ := h
    refine ⟨k, hfind.trans hk, hlent, hat, hlt, fun hp => ?_⟩
    rw [List.getLast?_cons, hlast hp]
    rfl

/-- **The loop of namex.** -/
theorem namexLoop_spec (hq : s₀.Quiet) (par : Bool) : ∀ (k : Nat) (s : State) (ip : Fin NINODE) (i : Nat) (path name : List UInt8),
    path.length < k → Lent s₀ s {i} ∅ → s.At ip i → i < s₀.sb.ninodes →
    match namexLoop par k ip path name s with
    | .ok (r, s') => Found s₀ par i (elements path) r s'
    | .error msg => Lost s₀ i (elements path) msg
  | 0, s, ip, i, path, name, hk, hl, ha, hi => absurd hk (Nat.not_lt_zero _)
  | k + 1, s, ip, i, path, name, hk, hl, ha, hi => by
    have hkey := hq.consistent.keyed
    have hlink := hq.linked i hi
    have hskip := skipelem_spec path name
    unfold namexLoop
    cases hsk : skipelem path name with
    | none =>
      rw [hsk] at hskip
      dsimp only at hskip ⊢
      rw [hskip]
      cases par with
      | true =>
        obtain ⟨s₁, he₁, hl₁, -⟩ := hl.iput hkey ha hlink
        rw [if_pos rfl, Code.bind_ok he₁]
        exact ⟨hl₁, rfl⟩
      | false => exact ⟨i, rfl, hl, ha, hi, nofun⟩
    | some r =>
      obtain ⟨path', name'⟩ := r
      rw [hsk] at hskip
      obtain ⟨hes, hlen, hend⟩ := hskip
      dsimp only
      rw [hes]
      by_cases ht : (s₀.dinode i).type = 0
      · rw [Code.bind_error (hl.ilock_free (Finset.notMem_empty ip) ha ht hkey)]
        exact .inr ⟨rfl, [], _, i, rfl, List.cons_ne_nil _ _, rfl, ht⟩
      obtain ⟨s₁, he₁, hl₁, hh₁, hd₁, hat₁⟩ := hl.ilock (Finset.notMem_empty ip) ha hi ht hkey
      have ha₁ := hat₁ ip i ha
      rw [Code.bind_ok he₁, inode_bind, hd₁]
      by_cases hdir : (s₀.dinode i).type = T_DIR
      case neg =>
        -- not a directory: neither to be looked in nor a parent
        obtain ⟨s₂, he₂, hl₂, -⟩ := hl₁.iunlockput (Finset.notMem_empty ip) hkey ha₁ hlink
        rw [if_pos hdir, Code.bind_ok he₂]
        exact ⟨hl₂, State.find_of_not_dir hdir (List.cons_ne_nil _ _)⟩
      rw [if_neg (not_not.mpr hdir)]
      by_cases hp : par = true ∧ char path' 0 = 0
      · obtain ⟨s₂, he₂, hl₂, hat₂⟩ := hl₁.iunlock (Finset.notMem_empty ip) ha₁
        rw [if_pos hp, Code.bind_ok he₂]
        have hnil := hend.mp hp.2
        refine ⟨i, ?_, hl₂, hat₂ ip i ha₁, hi, fun _ => ?_⟩
        · rw [hp.1, hnil, State.find, if_pos rfl, if_neg (List.cons_ne_nil _ _)]
          simp [State.walk, hdir]
        · rw [hnil]
          rfl
      rw [if_neg hp]
      have hes : par = false ∨ elements path' ≠ [] := by
        cases par with
        | false => exact .inl rfl
        | true => exact .inr fun h => hp ⟨rfl, hend.mpr h⟩
      have hfind := State.find_cons s₀ par i (key name') hes
      have hlookup : s₀.lookup i (key name') = (slots (s₀.contents i)).lookup (key name') := by
        rw [State.lookup, if_pos hdir, State.names, key_key]
      have hdist := (hq.directory i hi hdir).1.distinct
      have hspec := dirlookup_iget (hl₁.dirAt hq ha₁ hh₁ hd₁ hi hdir) hdist name'
      cases hlook : (slots (s₀.contents i)).lookup (key name') with
      | none =>
        rw [hlook] at hspec hlookup
        obtain ⟨s₂, he₂, hl₂, -⟩ := hl₁.iunlockput (Finset.notMem_empty ip) hkey ha₁ hlink
        rw [Code.bind_ok hspec]
        dsimp only
        rw [Code.bind_ok he₂]
        exact ⟨hl₂, by rw [hfind, hlookup]; rfl⟩
      | some j =>
        rw [hlook] at hspec hlookup
        obtain ⟨idx, -, heq⟩ := hspec
        have hget := hl₁.iget_spec j
        have hj := hq.lookup_lt hi hlookup
        cases hg : iget j s₁ with
        | error msg =>
          rw [hg] at hget
          rw [Code.bind_error (heq.trans (Code.bind_error hg))]
          have hspare := hl₁.spare_le hkey
          rw [hget.2, Multiset.card_singleton] at hspare
          exact .inl ⟨hget.1, by omega⟩
        | ok r =>
          rw [hg] at hget
          obtain ⟨hl₂, haj, hat₂⟩ := hget
          rw [Code.bind_ok (heq.trans (Code.bind_ok hg))]
          rw [show j ::ₘ {i} = i ::ₘ {j} from Multiset.pair_comm j i] at hl₂
          obtain ⟨s₃, he₃, hl₃, hat₃⟩ := hl₂.iunlockput (Finset.notMem_empty ip) hkey (hat₂ ip i ha₁) hlink
          dsimp only
          rw [Code.bind_ok he₃]
          have hrec := namexLoop_spec hq par k s₃ r.1 j path' name' (by omega) hl₃
            (hat₃ r.1 j (.inr (Multiset.mem_singleton_self j)) haj) hj
          split at hrec
          · exact hrec.cons hlookup hfind
          · exact hrec.imp id fun h => ⟨h.1, h.2.cons hlookup⟩

/-- Where a path starts. -/
def State.start (s : State) (cwd : Fin NINODE) (path : List UInt8) : Nat :=
  if char path 0 = slash then ROOTINO else (s.itable cwd).inum

/-- **namex.** -/
theorem namex_spec (hq : s.Quiet) (cwd : Fin NINODE) (hcwd : 0 < (s.itable cwd).ref) (path : List UInt8) (par : Bool)
    (name : List UInt8) : match namex cwd path par name s with
      | .ok (r, s') => Found s par (s.start cwd path) (elements path) r s'
      | .error msg => Lost s (s.start cwd path) (elements path) msg := by
  have hkey := hq.consistent.keyed
  have h₀ : Lent s s 0 ∅ := .refl hkey (by simpa using hq.unlocked) fun kp i ha _ => (hq.typed kp i ha).2
  unfold namex State.start
  by_cases hs : char path 0 = slash
  · rw [if_pos hs, if_pos hs]
    have hget := h₀.iget_spec ROOTINO
    cases hg : iget ROOTINO s with
    | error msg =>
      rw [hg] at hget
      rw [Code.bind_error hg]
      exact .inl ⟨hget.1, by omega⟩
    | ok r =>
      rw [hg] at hget
      rw [Code.bind_ok hg]
      exact namexLoop_spec hq par _ r.2 r.1 ROOTINO path name (Nat.lt_succ_self _) hget.1 hget.2.1 hq.root
  · rw [if_neg hs, if_neg hs]
    have ha : s.At cwd (s.itable cwd).inum := ⟨hcwd, rfl⟩
    obtain ⟨s₁, he, hl, hat⟩ := h₀.idup_spec ha
    rw [Code.bind_ok he]
    exact namexLoop_spec hq par _ s₁ cwd _ path name (Nat.lt_succ_self _) hl (hat _ _ ha) (hq.typed cwd _ ha).1

/-! ## The result -/

/-- **A directory tree without dangling entries**: what a directory names is allocated. -/
structure State.Tree (s : State) : Prop where
  quiet : s.Quiet
  root : (s.dinode ROOTINO).type ≠ 0
  entries : ∀ i < s.sb.ninodes, (s.dinode i).type = T_DIR → ∀ name j, some (name, j) ∈ slots (s.contents i) →
    (s.dinode j).type ≠ 0

theorem State.Tree.walk (h : s.Tree) : ∀ (es : List (List UInt8)) (i : Nat), i < s.sb.ninodes → (s.dinode i).type ≠ 0 →
    s.walk i es = some j → j < s.sb.ninodes ∧ (s.dinode j).type ≠ 0
  | [], i, hi, ht, hw => by
    cases hw
    exact ⟨hi, ht⟩
  | e :: es, i, hi, ht, hw => by
    obtain ⟨k, hk, hw⟩ := Option.bind_eq_some_iff.mp hw
    have hkt : (s.dinode k).type ≠ 0 := by
      have hdir : (s.dinode i).type = T_DIR := by
        by_contra hn
        rw [State.lookup, if_neg hn] at hk
        cases hk
      rw [State.lookup, if_pos hdir] at hk
      exact h.entries i hi hdir _ k ((Slots.lookup_some (h.quiet.directory i hi hdir).1.distinct).mp hk)
    exact h.walk es k (h.quiet.lookup_lt hi hk) hkt hw

theorem State.Tree.not_dangles (h : s.Tree) (hi : i < s.sb.ninodes) (ht : (s.dinode i).type ≠ 0) : ¬ s.Dangles i es := by
  rintro ⟨es₁, es₂, j, rfl, -, hw, hz⟩
  exact (h.walk es₁ i hi ht hw).2 hz

theorem State.Tree.start (h : s.Tree) {cwd : Fin NINODE} (hcwd : 0 < (s.itable cwd).ref) (path : List UInt8) :
    s.start cwd path < s.sb.ninodes ∧ (s.dinode (s.start cwd path)).type ≠ 0 := by
  unfold State.start
  split
  · exact ⟨h.quiet.root, h.root⟩
  · exact h.quiet.typed cwd _ ⟨hcwd, rfl⟩

/-- What a call leaves: every inode has the references it had, and the one returned one more; no file is changed. -/
structure Neutral (s s' : State) (r : Option Nat) : Prop where
  refs : ∀ i, s'.refs i = s.refs i + if r = some i then 1 else 0
  same : SameFs s s'
  unlocked : ∀ kp, (s'.itable kp).locked = false

theorem Lent.neutral_none (h : Lent s₀ s 0 ∅) : Neutral s₀ s none :=
  ⟨fun i => by rw [h.refs]; rfl, h.same, fun kp => by rw [h.locked]; rfl⟩

theorem Lent.neutral_some (h : Lent s₀ s {j} ∅) : Neutral s₀ s (some j) := by
  refine ⟨fun i => ?_, h.same, fun kp => by rw [h.locked]; rfl⟩
  rw [h.refs, Multiset.count_singleton]
  simp [eq_comm]

theorem Found.result {par : Bool} {r : Option (Fin NINODE × List UInt8)} (h : Found s par i es r s') :
    r.map (fun x => (s'.itable x.1).inum) = s.find par i es ∧ Neutral s s' (s.find par i es) ∧
      (par = true → ∀ x, r = some x → es.getLast? = some (key x.2)) := by
  cases r with
  | none =>
    rw [h.2]
    exact ⟨rfl, h.1.neutral_none, nofun⟩
  | some x =>
    obtain ⟨j, hj, hl, hat, -, hlast⟩ := h
    rw [hj]
    refine ⟨congrArg some hat.inum, hl.neutral_some, ?_⟩
    rintro hp _ ⟨⟩
    exact hlast hp

/-- **Path resolution.** namei returns the inode that the elements of the path lead to, and 0 if a lookup fails or is in
something else than a directory; nameiparent returns the directory that all but the last lead to, with the last as the
name, and 0 if there is no element or no such directory. References are given back. With fewer than two entries of the
table unused, iget may panic. -/
theorem namei_resolves (h : s.Tree) (cwd : Fin NINODE) (hcwd : 0 < (s.itable cwd).ref) (path : List UInt8) :
    (match namei cwd path s with
      | .ok (r, s') => r.map (fun ip => (s'.itable ip).inum) = s.walk (s.start cwd path) (elements path) ∧
          Neutral s s' (s.walk (s.start cwd path) (elements path))
      | .error msg => msg = "iget: no inodes" ∧ s.spare < 2) ∧
    ∀ name, match nameiparent cwd path name s with
      | .ok (r, s') => r.map (fun x => (s'.itable x.1).inum) = s.find true (s.start cwd path) (elements path) ∧
          Neutral s s' (s.find true (s.start cwd path) (elements path)) ∧
          ∀ x, r = some x → (elements path).getLast? = some (key x.2)
      | .error msg => msg = "iget: no inodes" ∧ s.spare < 2 := by
  have hstart := h.start hcwd path
  have hlost : ∀ msg, Lost s (s.start cwd path) (elements path) msg → msg = "iget: no inodes" ∧ s.spare < 2 := by
    rintro msg (hm | ⟨-, hd⟩)
    · exact hm
    · exact absurd hd (h.not_dangles hstart.1 hstart.2)
  refine ⟨?_, fun name => ?_⟩
  · have hspec := namex_spec h.quiet cwd hcwd path false (List.replicate DIRSIZ 0)
    unfold namei
    cases he : namex cwd path false (List.replicate DIRSIZ 0) s with
    | error msg =>
      rw [he] at hspec
      rw [Code.bind_error he]
      exact hlost msg hspec
    | ok r =>
      rw [he] at hspec
      rw [Code.bind_ok he]
      obtain ⟨hr, hn, -⟩ := Found.result hspec
      refine ⟨?_, hn⟩
      rw [Option.map_map]
      exact hr
  · have hspec := namex_spec h.quiet cwd hcwd path true name
    unfold nameiparent
    cases he : namex cwd path true name s with
    | error msg =>
      rw [he] at hspec
      exact hlost msg hspec
    | ok r =>
      rw [he] at hspec
      obtain ⟨hr, hn, hlast⟩ := Found.result hspec
      exact ⟨hr, hn, hlast rfl⟩

/-! ## The tree mkfs makes -/

/-- References to allocated inodes change nothing. -/
theorem Lent.quiet (h : Lent s₀ s H ∅) (hq : s₀.Quiet) (hH : ∀ i ∈ H, i < s₀.sb.ninodes ∧ (s₀.dinode i).type ≠ 0) :
    s.Quiet := by
  have hkey := hq.consistent.keyed
  have hd := h.same.dinode hkey
  have hc := h.same.contents hkey
  refine ⟨h.same.consistent hq.consistent, fun kp => by rw [h.locked]; rfl, fun kp i ha => ?_, fun i hi ht hn => ?_,
    fun i hi ht => ?_, ?_⟩
  · rw [h.same.sb, hd]
    by_cases hi : i ∈ H
    · exact hH i hi
    · have hrefs := h.refs i
      rw [Multiset.count_eq_zero_of_notMem hi, ha.refs h.keyed] at hrefs
      obtain ⟨jp, hj⟩ := State.at_of_refs hkey (by have := ha.ref; omega : 0 < s₀.refs i)
      exact hq.typed jp i hj
  · rw [h.same.sb] at hi
    rw [hd] at ht hn
    rw [h.refs]
    exact Nat.add_pos_left (hq.linked i hi ht hn) _
  · rw [h.same.sb] at hi ⊢
    rw [hd] at ht
    rw [hc]
    exact hq.directory i hi ht
  · rw [h.same.sb]
    exact hq.root

theorem Lent.tree (h : Lent s₀ s H ∅) (ht : s₀.Tree) (hH : ∀ i ∈ H, i < s₀.sb.ninodes ∧ (s₀.dinode i).type ≠ 0) :
    s.Tree := by
  have hkey := ht.quiet.consistent.keyed
  refine ⟨h.quiet ht.quiet hH, by rw [h.same.dinode hkey]; exact ht.root, fun i hi hdir name j hj => ?_⟩
  rw [h.same.sb] at hi
  rw [h.same.dinode hkey] at hdir ⊢
  rw [h.same.contents hkey] at hj
  exact ht.entries i hi hdir name j hj

section Made

variable {files : List Mkfs.Input} {t : Mkfs.Image}

theorem Booted.refs (h : Booted t s) (i : Nat) : s.refs i = 0 := by
  have hkey : s.Keyed := by
    intro kp lp hk
    rw [h.itable] at hk
    exact absurd hk (lt_irrefl 0)
  rw [State.refs_eq_zero hkey]
  rintro kp ⟨hr, -⟩
  rw [h.itable] at hr
  exact absurd hr (lt_irrefl 0)

/-- An inode that mkfs has allocated is the root or a file, with one link. -/
theorem Booted.allocated (h : Booted t s) (hm : Mkfs.Made files t) (hi : i < Mkfs.NINODES) (ht : (s.dinode i).type ≠ 0) :
    (s.dinode i).nlink = 1 ∧ (i = 1 ∧ (s.dinode i).type = T_DIR ∨
      2 ≤ i ∧ i < files.length + 2 ∧ (s.dinode i).type = T_FILE) := by
  rw [h.dinode, h.inode hi] at ht ⊢
  by_cases hu : i = 0 ∨ files.length + 1 < i
  · rw [hm.unused i hi hu] at ht
    exact absurd rfl ht
  · by_cases h1 : i = 1
    · subst h1
      obtain ⟨d, hd, hdf, -⟩ := hm.root
      refine ⟨?_, .inl ⟨rfl, type_root hm⟩⟩
      rw [hd, hdf]
      rfl
    · obtain ⟨k, rfl⟩ : ∃ k, i = k + 2 := ⟨i - 2, by omega⟩
      have hk : k < files.length := by omega
      obtain ⟨hf, -⟩ := hm.file k _ (List.getElem?_eq_getElem hk)
      rw [hf]
      exact ⟨rfl, .inr ⟨by omega, by omega, rfl⟩⟩

theorem mem_named {x : List UInt8 × Nat} : ∀ (files : List Mkfs.Input) (i : Nat), x ∈ named i files →
    i ≤ x.2 ∧ x.2 < i + files.length
  | [], _, h => by cases h
  | f :: fs, i, h => by
    rw [List.length_cons]
    rcases List.mem_cons.mp h with rfl | h
    · exact ⟨le_rfl, by omega⟩
    · have := mem_named fs (i + 1) h
      omega

/-- **What mkfs makes is a directory tree**, unless it left a hole in the root. -/
theorem Booted.tree (h : Booted t s) (hm : Mkfs.Made files t) (hfit : Mkfs.Fits files) (hn : (files.length + 2) % 64 ≠ 0)
    (hnames : ((rootNames files).map Prod.fst).Nodup) : s.Tree := by
  have hsb : s.sb.ninodes = Mkfs.NINODES := by rw [h.sb]; rfl
  have hcount : files.length ≤ Mkfs.NINODES - 2 := hfit.count
  have hN : Mkfs.NINODES = 200 := rfl
  obtain ⟨n, hslots⟩ := h.slots_root hm hfit hn
  have hroot : (s.dinode 1).type = T_DIR := by rw [h.dinode, h.inode (by decide), type_root hm]
  -- the root is the only directory
  have hone : ∀ i < s.sb.ninodes, (s.dinode i).type = T_DIR → i = 1 := by
    intro i hi ht
    rw [hsb] at hi
    rcases (h.allocated hm hi (by rw [ht]; decide)).2 with ⟨h1, -⟩ | ⟨-, -, hf⟩
    · exact h1
    · rw [ht] at hf
      exact absurd hf (by decide)
  have hcont : slots (s.contents 1) = (rootNames files).map some ++ List.replicate n none := by
    rw [State.contents, h.dinode, hslots]
  have hmem : ∀ name j, some (name, j) ∈ slots (s.contents 1) → j = 1 ∨ 2 ≤ j ∧ j < files.length + 2 := by
    intro name j hj
    rw [hcont, List.mem_append] at hj
    rcases hj with hj | hj
    · obtain ⟨x, hx, hxe⟩ := List.mem_map.mp hj
      cases hxe
      simp only [rootNames, List.mem_cons, Prod.mk.injEq] at hx
      rcases hx with ⟨-, h1⟩ | ⟨-, h1⟩ | hx
      · exact .inl h1
      · exact .inl h1
      · exact .inr (by have := mem_named files 2 hx; dsimp only at this; omega)
    · cases List.eq_of_mem_replicate hj
  refine ⟨⟨h.consistent hm hfit hn, fun kp => by rw [h.itable], fun kp i ha => ?_, fun i hi ht hz => ?_, fun i hi ht => ?_, ?_⟩,
    by rw [show ROOTINO = 1 from rfl, hroot]; decide, fun i hi ht name j hj => ?_⟩
  · have := ha.ref
    rw [h.itable] at this
    exact absurd this (lt_irrefl 0)
  · rw [hsb] at hi
    rw [(h.allocated hm hi ht).1] at hz
    cases hz
  · obtain rfl := hone i hi ht
    refine ⟨⟨?_, ?_⟩, fun name j hj => ?_⟩
    · rw [State.contents, h.dinode, Dinode.length_bytes, h.inode (by decide), size_root hm]
      exact Dvd.dvd.mul_left (by decide) _
    · rw [hcont]
      exact distinct_names hnames n
    · have := hmem name j hj
      omega
  · rw [hsb]
    decide
  · obtain rfl := hone i hi ht
    rcases hmem name j hj with rfl | ⟨hj2, hjl⟩
    · rw [hroot]
      decide
    · obtain ⟨k, rfl⟩ : ∃ k, j = k + 2 := ⟨j - 2, by omega⟩
      obtain ⟨hf, -⟩ := hm.file k _ (List.getElem?_eq_getElem (by omega : k < files.length))
      rw [h.dinode, h.inode (by omega), hf]
      exact (by decide : T_FILE ≠ 0)

theorem Booted.spare (h : Booted t s) : s.spare = NINODE := by
  have hused : s.used = ∅ := by
    refine Finset.image_eq_empty.mpr (Finset.filter_eq_empty_iff.mpr fun kp _ hr => ?_)
    rw [h.itable] at hr
    exact absurd hr (lt_irrefl 0)
  rw [State.spare, hused, Finset.card_empty, Nat.sub_zero]

/-- The first process's current directory is the root. -/
theorem Booted.root (h : Booted t s) (ht : s.Tree) : ∃ cwd s', iget ROOTINO s = .ok (cwd, s') ∧ Lent s s' {ROOTINO} ∅ ∧
    s'.At cwd ROOTINO ∧ s'.Tree ∧ 2 ≤ s'.spare := by
  have hkey := ht.quiet.consistent.keyed
  have h₀ : Lent s s 0 ∅ := .refl hkey (by simpa using ht.quiet.unlocked) fun kp i ha _ => (ht.quiet.typed kp i ha).2
  have hget := h₀.iget_spec ROOTINO
  have hspare := h.spare
  have hN : NINODE = 50 := rfl
  cases hg : iget ROOTINO s with
  | error msg =>
    rw [hg] at hget
    omega
  | ok r =>
    rw [hg] at hget
    obtain ⟨hl, ha, -⟩ := hget
    have hle := hl.spare_le hkey
    rw [Multiset.card_cons, Multiset.card_zero] at hle
    refine ⟨r.1, r.2, rfl, hl, ha, hl.tree ht fun i hi => ?_, by omega⟩
    rw [Multiset.mem_cons] at hi
    obtain rfl := hi.resolve_right (Multiset.notMem_zero i)
    exact ⟨ht.quiet.root, ht.root⟩

end Made

/-- The first process of a small image looks up "//hi" and finds inode 2. -/
theorem namei_resolves_hello : ∃ (s s' : State) (cwd ip : Fin NINODE), s.Tree ∧ s.refs 2 = 0 ∧
    namei cwd [47, 47, 104, 105] s = .ok (some ip, s') ∧ (s'.itable ip).inum = 2 ∧ s'.refs 2 = 1 := by
  obtain ⟨t, s₀, -, -, hb, hm, -⟩ := boot_hello
  have hfit : Mkfs.Fits [Mkfs.hello] := ⟨by decide, by decide, by decide, by decide⟩
  have htree := hb.tree hm hfit (by decide) (by decide)
  have hkey := htree.quiet.consistent.keyed
  obtain ⟨cwd, s, -, hl, ha, hs, hspare⟩ := hb.root htree
  have hrefs : s.refs 2 = 0 := by
    rw [hl.refs, hb.refs]
    decide
  have hwalk : s.walk (s.start cwd [47, 47, 104, 105]) (elements [47, 47, 104, 105]) = some 2 := by
    have hes : elements [47, 47, 104, 105] = [[104, 105]] := by decide +kernel
    obtain ⟨n, hslots⟩ := hb.slots_root hm hfit (by decide)
    have hcont : slots (s.contents 1) = (rootNames [Mkfs.hello]).map some ++ List.replicate n none := by
      rw [hl.same.contents hkey, State.contents, hb.dinode, hslots]
    have hdir : (s.dinode 1).type = T_DIR := by
      rw [hl.same.dinode hkey, hb.dinode, hb.inode (by decide), type_root hm]
    rw [hes, State.start, if_pos (by decide), State.walk, State.lookup, show ROOTINO = 1 from rfl, if_pos hdir, State.names,
      hcont]
    rfl
  have hres := (namei_resolves hs cwd ha.ref [47, 47, 104, 105]).1
  rw [hwalk] at hres
  split at hres
  · next r s' he =>
    obtain ⟨hr, hn⟩ := hres
    obtain ⟨ip, rfl, hip⟩ := Option.map_eq_some_iff.mp hr
    exact ⟨s, s', cwd, ip, hs, hrefs, he, hip, by rw [hn.refs, hrefs, if_pos rfl]⟩
  · omega

end Xv6.Fs
