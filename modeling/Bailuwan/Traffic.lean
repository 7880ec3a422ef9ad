/-
# Traffic of the cache simulator (`CacheSim::access`)

What the counters of the simulator count, for every replacement policy.  Each of them is
bumped by certain accesses (`accesses_counter`); how these accesses add up depends on the
write policies.  Under write-back a block that becomes dirty is written back once or is still
there, so that the dirty lines make up the difference (`dirties_eq`).
-/
import Bailuwan.CacheRun
import Mathlib.Algebra.BigOperators.Group.Finset.Basic

namespace Bailuwan

open DirectMapped

namespace CacheSim

/-- The block of an address is in the cache, and dirty. -/
def dirtyAt (s : CacheSim) (addr : Word) : Bool :=
  (s.currentSet addr).any fun line => line.valid && line.tag == s.tag addr && line.dirty

/-- The access makes a clean or absent block dirty. -/
def dirties (s : CacheSim) (a : Access) : Bool :=
  !s.dirtyAt a.1 && (s.access a.1 a.2).dirtyAt a.1

/-- The access is a write that misses. -/
def writeMiss (s : CacheSim) (a : Access) : Bool := !s.hit a.1 && decide (a.2 = .WRITE)

/-- The lines in use that are dirty. -/
def dirtyLines (c : Config) (s : CacheSim) : ℕ :=
  ∑ i ∈ Finset.range c.numSets.toNat,
    (s.sets (BitVec.ofNat 32 i)).countP fun line => line.valid && line.dirty

/-- The number of reads of a trace. -/
def reads (l : List Access) : ℕ := l.countP fun a => decide (a.2 = .READ)

/-- The number of writes of a trace. -/
def writes (l : List Access) : ℕ := l.countP fun a => decide (a.2 = .WRITE)

/-- **The accounts of a trace.**  The counters count modulo `2 ^ 64`, so exactly as long as the
trace is shorter. -/
structure Accounts (c : Config) (rng : ℕ → ℕ) (l : List Access) (s : CacheSim) : Prop where
  reads : s.readHits + s.readMisses = BitVec.ofNat 64 (reads l)
  writes : s.writeHits + s.writeMisses = BitVec.ofNat 64 (writes l)
  through : c.writePolicy = .WRITE_THROUGH → s.writeThroughs = BitVec.ofNat 64 (CacheSim.writes l) ∧
    s.writeBacks = 0 ∧ ∀ i, ∀ line ∈ s.sets i, line.dirty = false
  back : c.writePolicy = .WRITE_BACK → BitVec.ofNat 64 (occurrences dirties (c.start rng) l) =
    s.writeBacks + BitVec.ofNat 64 (dirtyLines c s)
  noAllocate : c.writePolicy = .WRITE_BACK → c.allocPolicy = .NO_WRITE_ALLOCATE →
    s.writeThroughs = BitVec.ofNat 64 (occurrences writeMiss (c.start rng) l)
  allocate : c.writePolicy = .WRITE_BACK → c.allocPolicy = .WRITE_ALLOCATE → s.writeThroughs = 0
  noWrap : l.length < 2 ^ 64 →
    s.readHits.toNat + s.readMisses.toNat = CacheSim.reads l ∧
    s.writeHits.toNat + s.writeMisses.toNat = CacheSim.writes l ∧
    (c.writePolicy = .WRITE_BACK → occurrences dirties (c.start rng) l =
      s.writeBacks.toNat + dirtyLines c s)

variable {c : Config} {s : CacheSim} {l : List Access} {a : Access} {addr : Word}
  {type : AccessType} {lines A B : List CacheLine} {x y : CacheLine} {t : Word}
  {p q : CacheSim → Access → Bool} {r : Access → Bool}

/-! ### Counters -/

/-- **A counter counts** the accesses that bump it. -/
theorem Fits.accesses_counter {f : CacheSim → BitVec 64} (hs : Fits c s)
    (h : ∀ s a, Fits c s → f (s.access a.1 a.2) = f s + if p s a then 1 else 0) (h0 : f s = 0)
    (l : List Access) : f (s.accesses l) = BitVec.ofNat 64 (occurrences p s l) := by
  induction l using List.reverseRecOn with
  | nil => exact h0
  | append_singleton l a ih =>
      rw [accesses_concat, h _ a (hs.accesses l), ih, occurrences_concat, BitVec.ofNat_add]
      split_ifs <;> rfl

/-- Nothing happens more often than there are accesses. -/
theorem occurrences_le (p : CacheSim → Access → Bool) (s : CacheSim) (l : List Access) :
    occurrences p s l ≤ l.length := by
  induction l using List.reverseRecOn with
  | nil => exact le_rfl
  | append_singleton l a ih =>
      rw [occurrences_concat, List.length_append, List.length_singleton]
      split_ifs <;> omega

/-- Two kinds of accesses that make up a third. -/
theorem occurrences_add (h : ∀ s a, (if p s a then 1 else 0) + (if q s a then 1 else 0) =
      if r a then 1 else 0) (s : CacheSim) (l : List Access) :
    occurrences p s l + occurrences q s l = l.countP r := by
  induction l using List.reverseRecOn with
  | nil => rfl
  | append_singleton l a ih =>
      rw [occurrences_concat, occurrences_concat, List.countP_append, List.countP_singleton, ← ih,
        ← h (s.accesses l) a]
      omega

/-- What is the same for every cache that fits happens as often. -/
theorem Fits.occurrences_congr (hs : Fits c s) (h : ∀ s a, Fits c s → p s a = q s a)
    (l : List Access) : occurrences p s l = occurrences q s l := by
  induction l using List.reverseRecOn with
  | nil => rfl
  | append_singleton l a ih =>
      rw [occurrences_concat, occurrences_concat, ih, h _ a (hs.accesses l)]

/-- What depends on the access only is counted in the trace. -/
theorem occurrences_const (r : Access → Bool) (s : CacheSim) (l : List Access) :
    occurrences (fun _ a => r a) s l = l.countP r := by
  induction l using List.reverseRecOn with
  | nil => rfl
  | append_singleton l a ih =>
      rw [occurrences_concat, List.countP_append, List.countP_singleton, ih]

/-- A read that hits. -/
def readHit (s : CacheSim) (a : Access) : Bool := s.hit a.1 && decide (a.2 = .READ)

/-- A read that misses. -/
def readMiss (s : CacheSim) (a : Access) : Bool := !s.hit a.1 && decide (a.2 = .READ)

/-- A write that hits. -/
def writeHit (s : CacheSim) (a : Access) : Bool := s.hit a.1 && decide (a.2 = .WRITE)

/-- The write goes through to the memory. -/
def writesThrough (s : CacheSim) (a : Access) : Bool :=
  decide (a.2 = .WRITE ∧ (s.writePolicy ≠ .WRITE_BACK ∨
    s.hit a.1 = false ∧ s.allocPolicy = .NO_WRITE_ALLOCATE))

/-- The access evicts a dirty line. -/
def writesBack (s : CacheSim) (a : Access) : Bool :=
  decide ((s.access a.1 a.2).writeBacks = s.writeBacks + 1)

/-- **What an access adds to the counters.** -/
theorem counters_access (s : CacheSim) (a : Access) :
    (s.access a.1 a.2).readHits = s.readHits + (if s.readHit a then 1 else 0) ∧
    (s.access a.1 a.2).readMisses = s.readMisses + (if s.readMiss a then 1 else 0) ∧
    (s.access a.1 a.2).writeHits = s.writeHits + (if s.writeHit a then 1 else 0) ∧
    (s.access a.1 a.2).writeMisses = s.writeMisses + (if s.writeMiss a then 1 else 0) ∧
    (s.access a.1 a.2).writeThroughs =
      s.writeThroughs + (if s.writesThrough a then 1 else 0) := by
  obtain ⟨addr, type⟩ := a
  cases hhit : s.hit addr with
  | true =>
      obtain ⟨_, _, _, _, -, -, -, haccess, -⟩ := access_of_hit type hhit
      simp only [readHit, readMiss, writeHit, writeMiss, writesThrough, haccess, onHit, hhit]
      cases type <;> by_cases hback : s.writePolicy = .WRITE_BACK <;> simp [tick, hback]
  | false =>
      have haccess := access_of_miss type hhit
      simp only [readHit, readMiss, writeHit, writeMiss, writesThrough, haccess, hhit]
      by_cases hno : type = .WRITE ∧ s.allocPolicy = .NO_WRITE_ALLOCATE
      · have htick : type = .WRITE ∧ s.tick.allocPolicy = .NO_WRITE_ALLOCATE := hno
        rw [onMiss, if_pos htick]
        simp [tick, hno]
      · have htick : ¬ (type = .WRITE ∧ s.tick.allocPolicy = .NO_WRITE_ALLOCATE) := hno
        rw [onMiss, if_neg htick]
        cases type <;> by_cases hback : s.writePolicy = .WRITE_BACK <;>
          simp_all [tick]

/-- A hit writes nothing back. -/
theorem writeBacks_of_hit (h : s.hit addr = true) :
    (s.access addr type).writeBacks = s.writeBacks := by
  obtain ⟨_, _, _, _, -, -, -, haccess, -⟩ := access_of_hit type h
  rw [haccess]
  rfl

/-- A counter that goes up by one changes. -/
theorem ne_add_one (v : BitVec 64) : v ≠ v + 1 := by
  bv_omega

/-- An access that leaves the counter as it is writes nothing back. -/
theorem writesBack_of_eq (h : (s.access a.1 a.2).writeBacks = s.writeBacks) :
    s.writesBack a = false := by
  rw [writesBack, h]
  exact decide_eq_false (ne_add_one _)

/-- The counter counts the accesses that write back. -/
theorem Fits.writeBacks_access (hs : Fits c s) (hr : c.Regular) (a : Access) :
    (s.access a.1 a.2).writeBacks = s.writeBacks + (if s.writesBack a then 1 else 0) := by
  have hcases : (s.access a.1 a.2).writeBacks = s.writeBacks ∨
      (s.access a.1 a.2).writeBacks = s.writeBacks + 1 := by
    cases hhit : s.hit a.1 with
    | true => exact .inl (writeBacks_of_hit hhit)
    | false =>
        by_cases hno : a.2 = .WRITE ∧ s.allocPolicy = .NO_WRITE_ALLOCATE
        · exact .inl (access_of_noAllocate hhit hno).1
        · obtain ⟨_, x, _, -, -, -, hbacks⟩ := hs.access_of_allocate hr hhit hno
          rw [hbacks]
          split_ifs
          · exact .inr rfl
          · exact .inl rfl
  rcases hcases with h | h
  · rw [writesBack_of_eq h, if_neg Bool.false_ne_true, h]
    exact (BitVec.add_zero _).symm
  · have hback : s.writesBack a = true := decide_eq_true h
    rw [hback, if_pos rfl, h]

/-! ### Dirty lines -/

/-- Every set holds a block at most once. -/
def Distinct (s : CacheSim) : Prop := ∀ i, (validTags (s.sets i)).Nodup

/-- The valid tags, with one of the lines in front. -/
theorem validTags_split : (validTags (A ++ x :: B)).Perm
    ((if x.valid then [x.tag] else []) ++ validTags (A ++ B)) := by
  rw [validTags, validTags, List.filter_append, List.filter_cons, List.filter_append]
  cases x.valid with
  | true =>
      rw [if_pos rfl, if_pos rfl, List.map_append, List.map_cons]
      exact List.perm_middle.trans (by rw [List.map_append]; exact .refl _)
  | false => exact .refl _

/-- **A set with a line replaced** holds no block twice, if the new block is not there. -/
theorem nodup_replace (h : (validTags (A ++ x :: B)).Nodup)
    (hy : y.tag ∉ validTags (A ++ x :: B) ∨ x.valid = true ∧ y.tag = x.tag) :
    (validTags (A ++ y :: B)).Nodup := by
  rw [validTags_split.nodup_iff] at h ⊢
  have hAB := (List.nodup_append.mp h).2.1
  split_ifs with hv
  · rw [List.singleton_append, List.nodup_cons]
    refine ⟨?_, hAB⟩
    rcases hy with hy | ⟨hx, htag⟩
    · rw [validTags_split.mem_iff] at hy
      exact fun hmem => hy (List.mem_append_right _ hmem)
    · rw [if_pos hx, List.singleton_append, List.nodup_cons] at h
      exact htag ▸ h.1
  · exact hAB

/-- The set of an address is the only one that changes. -/
theorem Distinct.update (h : Distinct s) {s' : CacheSim} {i : Word}
    (hsets : s'.sets = Function.update s.sets i lines) (hl : (validTags lines).Nodup) :
    Distinct s' := by
  intro j
  rw [hsets]
  by_cases hj : j = i
  · subst hj
    rwa [Function.update_self]
  · rw [Function.update_of_ne hj]
    exact h j

/-- An access keeps the lines of a set distinct. -/
theorem Distinct.access (h : Distinct s) (hs : Fits c s) (hr : c.Regular) (a : Access) :
    Distinct (s.access a.1 a.2) := by
  have hset := h (s.index a.1)
  cases hhit : s.hit a.1 with
  | true =>
      obtain ⟨_, A, x, B, hlines, hvalid, -, -, hsets⟩ := access_of_hit a.2 hhit
      rw [show s.sets (s.index a.1) = _ from hlines] at hset
      exact h.update hsets (nodup_replace hset (.inr ⟨hvalid, rfl⟩))
  | false =>
      by_cases hno : a.2 = .WRITE ∧ s.allocPolicy = .NO_WRITE_ALLOCATE
      · intro i
        rw [(access_of_noAllocate hhit hno).2]
        exact h i
      · obtain ⟨A, x, B, hlines, -, hsets, -⟩ := hs.access_of_allocate hr hhit hno
        have hmem : s.tag a.1 ∉ validTags (s.currentSet a.1) := by
          rw [← CacheSim.hit_iff, hhit]
          exact Bool.false_ne_true
        rw [show s.sets (s.index a.1) = _ from hlines] at hset
        rw [hlines] at hmem
        exact h.update hsets (nodup_replace hset (.inl hmem))

/-- A trace keeps the lines of a set distinct. -/
theorem Distinct.accesses (h : Distinct s) (hs : Fits c s) (hr : c.Regular) (l : List Access) :
    Distinct (s.accesses l) := by
  induction l using List.reverseRecOn with
  | nil => exact h
  | append_singleton l a ih =>
      rw [accesses_concat]
      exact ih.access (hs.accesses l) hr a

/-- In a set without duplicates, whether a block is dirty is said by its line. -/
theorem any_dirty (h : (validTags (A ++ x :: B)).Nodup) (hx : x.valid = true) (ht : x.tag = t) :
    ((A ++ x :: B).any fun line => line.valid && line.tag == t && line.dirty) = x.dirty := by
  have hmem : x ∈ A ++ x :: B := List.mem_append_right A List.mem_cons_self
  rw [Bool.eq_iff_iff, List.any_eq_true]
  constructor
  · rintro ⟨z, hz, hand⟩
    rw [Bool.and_eq_true, Bool.and_eq_true, beq_iff_eq] at hand
    obtain ⟨⟨hv, htag⟩, hdirty⟩ := hand
    have heq : z = x := List.inj_on_of_nodup_map h (List.mem_filter.mpr ⟨hz, hv⟩)
      (List.mem_filter.mpr ⟨hmem, hx⟩) (htag.trans ht.symm)
    rwa [← heq]
  · intro hdirty
    exact ⟨x, hmem, by simp [hx, ht, hdirty]⟩

/-- A block that is not in the cache is not dirty there. -/
theorem dirtyAt_of_miss (h : s.hit addr = false) : s.dirtyAt addr = false := by
  rw [dirtyAt, List.any_eq_false]
  intro line hline hand
  rw [Bool.and_eq_true, Bool.and_eq_true, beq_iff_eq] at hand
  have hhit : s.hit addr = true :=
    CacheSim.hit_iff.mpr (mem_validTags_iff.mpr ⟨line, hline, hand.1.1, hand.1.2⟩)
  rw [h] at hhit
  exact Bool.false_ne_true hhit

/-- The lines that satisfy a condition, with one of them in front. -/
theorem countP_split {p : CacheLine → Bool} :
    (A ++ x :: B).countP p = (A ++ B).countP p + if p x then 1 else 0 := by
  rw [List.countP_append, List.countP_cons, List.countP_append]
  omega

/-- **A set is replaced**: what was dirty there is exchanged for what is dirty now. -/
theorem dirtyLines_update {s' : CacheSim} {i : Word} (hi : i.toNat < c.numSets.toNat)
    (hset : s.sets i = A ++ x :: B)
    (hsets : s'.sets = Function.update s.sets i (A ++ y :: B)) :
    dirtyLines c s' + (if x.valid && x.dirty then 1 else 0) =
      dirtyLines c s + if y.valid && y.dirty then 1 else 0 := by
  have hmem : i.toNat ∈ Finset.range c.numSets.toNat := Finset.mem_range.mpr hi
  have hself : BitVec.ofNat 32 i.toNat = i := BitVec.eq_of_toNat_eq (by simp)
  have hset' : s'.sets i = A ++ y :: B := by rw [hsets, Function.update_self]
  have hrest : ∀ k ∈ (Finset.range c.numSets.toNat).erase i.toNat,
      (s'.sets (BitVec.ofNat 32 k)).countP (fun line => line.valid && line.dirty) =
        (s.sets (BitVec.ofNat 32 k)).countP fun line => line.valid && line.dirty := by
    intro k hk
    obtain ⟨hne, hk⟩ := Finset.mem_erase.mp hk
    rw [hsets, Function.update_of_ne]
    intro heq
    have hk32 : k < 2 ^ 32 := (Finset.mem_range.mp hk).trans c.numSets.isLt
    rw [← heq, BitVec.toNat_ofNat, Nat.mod_eq_of_lt hk32] at hne
    exact hne rfl
  have hsum := Finset.add_sum_erase (Finset.range c.numSets.toNat)
    (fun k => (s.sets (BitVec.ofNat 32 k)).countP fun line => line.valid && line.dirty) hmem
  have hsum' := Finset.add_sum_erase (Finset.range c.numSets.toNat)
    (fun k => (s'.sets (BitVec.ofNat 32 k)).countP fun line => line.valid && line.dirty) hmem
  simp only [hself, hset, hset', countP_split] at hsum hsum'
  rw [Finset.sum_congr rfl hrest] at hsum'
  rw [dirtyLines, dirtyLines]
  omega

/-- Whether the block of an address is dirty is said by the line that was put in its set. -/
theorem Fits.dirtyAt_replaced (hs : Fits c s) (hr : c.Regular) {s' : CacheSim}
    (hs' : Fits c s') (hd' : Distinct s') {addr : Word}
    (hsets : s'.sets = Function.update s.sets (s.index addr) (A ++ y :: B))
    (hy : y.valid = true) (ht : y.tag = s.tag addr) : s'.dirtyAt addr = y.dirty := by
  have hset := hd' (s.index addr)
  rw [hsets, Function.update_self] at hset
  rw [dirtyAt, currentSet, hs.index_congr hr hs' hr rfl, hs.tag_congr hr hs' hr rfl, hsets,
    Function.update_self, any_dirty hset hy ht]

/-- A hit writes nothing back. -/
theorem Fits.dirties_of_hit (hs : Fits c s) (hr : c.Regular) (hd : Distinct s)
    (hhit : s.hit a.1 = true) : (if s.dirties a then 1 else 0) + dirtyLines c s =
      (if s.writesBack a then 1 else 0) + dirtyLines c (s.access a.1 a.2) := by
  obtain ⟨_, A, x, B, hlines, hvalid, htag, -, hsets⟩ := access_of_hit a.2 hhit
  have hset := hd (s.index a.1)
  rw [show s.sets (s.index a.1) = _ from hlines] at hset
  have hbefore : s.dirtyAt a.1 = x.dirty := by
    rw [dirtyAt, hlines, any_dirty hset hvalid htag]
  have hafter : (s.access a.1 a.2).dirtyAt a.1 = (s.tick.touch a.2 x).dirty :=
    hs.dirtyAt_replaced hr hs.access (hd.access hs hr a) hsets hvalid htag
  have hdirty : (s.tick.touch a.2 x).dirty =
      if a.2 = .WRITE ∧ s.writePolicy = .WRITE_BACK then true else x.dirty := rfl
  have hsum := dirtyLines_update (hs.index_lt hr a.1) hlines hsets
  rw [writesBack_of_eq (writeBacks_of_hit hhit), dirties, hbefore, hafter, hdirty]
  rw [hvalid, show (s.tick.touch a.2 x).valid = true from hvalid, hdirty] at hsum
  by_cases hw : a.2 = .WRITE ∧ s.writePolicy = .WRITE_BACK
  · cases hx : x.dirty <;> simp [hw, hx] at hsum ⊢ <;> omega
  · cases hx : x.dirty <;> simp [hw, hx] at hsum ⊢ <;> omega

/-- A miss that allocates writes the victim back if it is dirty. -/
theorem Fits.dirties_of_allocate (hs : Fits c s) (hr : c.Regular) (hd : Distinct s)
    (hback : c.writePolicy = .WRITE_BACK) (hhit : s.hit a.1 = false)
    (halloc : ¬ (a.2 = .WRITE ∧ s.allocPolicy = .NO_WRITE_ALLOCATE)) :
    (if s.dirties a then 1 else 0) + dirtyLines c s =
      (if s.writesBack a then 1 else 0) + dirtyLines c (s.access a.1 a.2) := by
  obtain ⟨A, x, B, hlines, -, hsets, hbacks⟩ := hs.access_of_allocate hr hhit halloc
  have hafter : (s.access a.1 a.2).dirtyAt a.1 = (s.tick.refill a.1 a.2).dirty :=
    hs.dirtyAt_replaced hr hs.access (hd.access hs hr a) hsets rfl rfl
  have hsum := dirtyLines_update (hs.index_lt hr a.1) hlines hsets
  have hwb : s.writePolicy = .WRITE_BACK := hs.writePolicy.trans hback
  have hevict : s.writesBack a = (x.valid && x.dirty) := by
    rw [writesBack, hbacks, hwb]
    cases x.valid <;> cases x.dirty <;> simp
  rw [hevict, dirties, dirtyAt_of_miss hhit, hafter]
  rw [show (s.tick.refill a.1 a.2).valid = true from rfl] at hsum
  simp only [Bool.true_and, Bool.not_false] at hsum ⊢
  omega

/-- **One access**: a block that gets dirty is written back, or is there. -/
theorem Fits.dirties_access (hs : Fits c s) (hr : c.Regular) (hd : Distinct s)
    (hback : c.writePolicy = .WRITE_BACK) (a : Access) :
    (if s.dirties a then 1 else 0) + dirtyLines c s =
      (if s.writesBack a then 1 else 0) + dirtyLines c (s.access a.1 a.2) := by
  cases hhit : s.hit a.1 with
  | true => exact hs.dirties_of_hit hr hd hhit
  | false =>
      by_cases hno : a.2 = .WRITE ∧ s.allocPolicy = .NO_WRITE_ALLOCATE
      · obtain ⟨hbacks, hsets⟩ := access_of_noAllocate hhit hno
        have hafter : (s.access a.1 a.2).dirtyAt a.1 = false := by
          rw [← dirtyAt_of_miss hhit, dirtyAt, dirtyAt, currentSet, currentSet,
            hs.index_congr hr hs.access hr rfl, hs.tag_congr hr hs.access hr rfl, hsets]
        rw [writesBack_of_eq hbacks, dirties, hafter, dirtyLines, dirtyLines, hsets]
        simp
      · exact hs.dirties_of_allocate hr hd hback hhit hno

/-- What has become dirty has been written back or is dirty still. -/
theorem dirties_eq (hs : Fits c s) (hr : c.Regular) (hd : Distinct s)
    (hback : c.writePolicy = .WRITE_BACK) (h0 : dirtyLines c s = 0) (l : List Access) :
    occurrences dirties s l = occurrences writesBack s l + dirtyLines c (s.accesses l) := by
  induction l using List.reverseRecOn with
  | nil =>
      change 0 = 0 + dirtyLines c s
      rw [h0]
  | append_singleton l a ih =>
      have hstep := (hs.accesses l).dirties_access hr (hd.accesses hs hr l) hback a
      rw [occurrences_concat, occurrences_concat, accesses_concat]
      omega

/-- At the start no line is dirty. -/
theorem dirtyLines_start (c : Config) (rng : ℕ → ℕ) : dirtyLines c (c.start rng) = 0 := by
  refine Finset.sum_eq_zero fun i _ => List.countP_eq_zero.mpr fun line hline => ?_
  rw [List.eq_of_mem_replicate hline]
  decide

/-- At the start the lines are distinct. -/
theorem distinct_start (c : Config) (rng : ℕ → ℕ) : Distinct (c.start rng) := by
  intro i
  have hnone : ((c.start rng).sets i).filter (fun line => line.valid) = [] := by
    rw [List.filter_eq_nil_iff]
    intro line hline
    rw [List.eq_of_mem_replicate hline]
    decide
  rw [validTags, hnone]
  exact List.nodup_nil

/-! ### Write-through -/

/-- No line is dirty. -/
def Clean (s : CacheSim) : Prop := ∀ i, ∀ line ∈ s.sets i, line.dirty = false

/-- An access that leaves its line clean leaves the cache clean. -/
theorem Clean.update (h : Clean s) {s' : CacheSim} {i : Word} (hset : s.sets i = A ++ x :: B)
    (hsets : s'.sets = Function.update s.sets i (A ++ y :: B)) (hy : y.dirty = false) :
    Clean s' := by
  intro j line hline
  rw [hsets] at hline
  by_cases hj : j = i
  · subst hj
    rw [Function.update_self] at hline
    rcases List.mem_append.mp hline with hA | hB
    · exact h j line (by rw [hset]; exact List.mem_append_left _ hA)
    · rcases List.mem_cons.mp hB with rfl | hB
      · exact hy
      · exact h j line (by rw [hset]; exact List.mem_append_right _ (List.mem_cons_of_mem _ hB))
  · rw [Function.update_of_ne hj] at hline
    exact h j line hline

/-- **Under write-through** an access leaves no line dirty and writes none back. -/
theorem Clean.access (h : Clean s) (hs : Fits c s) (hr : c.Regular)
    (hthrough : c.writePolicy = .WRITE_THROUGH) (a : Access) :
    Clean (s.access a.1 a.2) ∧ (s.access a.1 a.2).writeBacks = s.writeBacks := by
  have hw : s.writePolicy ≠ .WRITE_BACK := by
    rw [hs.writePolicy, hthrough]
    decide
  cases hhit : s.hit a.1 with
  | true =>
      obtain ⟨_, A, x, B, hlines, -, -, -, hsets⟩ := access_of_hit a.2 hhit
      have hx : x.dirty = false := h (s.index a.1) x (by
        rw [show s.sets (s.index a.1) = _ from hlines]
        exact List.mem_append_right A List.mem_cons_self)
      have hy : (s.tick.touch a.2 x).dirty = false := (if_neg fun hand => hw hand.2).trans hx
      exact ⟨h.update hlines hsets hy, writeBacks_of_hit hhit⟩
  | false =>
      by_cases hno : a.2 = .WRITE ∧ s.allocPolicy = .NO_WRITE_ALLOCATE
      · obtain ⟨hbacks, hsets⟩ := access_of_noAllocate hhit hno
        refine ⟨fun i => ?_, hbacks⟩
        rw [hsets]
        exact h i
      · obtain ⟨A, x, B, hlines, -, hsets, hbacks⟩ := hs.access_of_allocate hr hhit hno
        have hy : (s.tick.refill a.1 a.2).dirty = false :=
          decide_eq_false fun hand => hw hand.2
        rw [if_neg fun hand => hw hand.2.2] at hbacks
        exact ⟨h.update hlines hsets hy, hbacks⟩

/-- A cache that writes through is never dirty. -/
theorem clean_accesses (hr : c.Regular) (hthrough : c.writePolicy = .WRITE_THROUGH)
    (rng : ℕ → ℕ) (l : List Access) : Clean ((c.start rng).accesses l) ∧
      ((c.start rng).accesses l).writeBacks = 0 := by
  induction l using List.reverseRecOn with
  | nil =>
      refine ⟨fun i line hline => ?_, rfl⟩
      rw [List.eq_of_mem_replicate hline]
  | append_singleton l a ih =>
      obtain ⟨hclean, hbacks⟩ := ih
      obtain ⟨hclean', hbacks'⟩ :=
        hclean.access ((fits_start c rng).accesses l) hr hthrough a
      rw [accesses_concat]
      exact ⟨hclean', hbacks'.trans hbacks⟩

/-! ### The accounts -/

/-- Reads hit or miss. -/
theorem occurrences_reads (s : CacheSim) (l : List Access) :
    occurrences readHit s l + occurrences readMiss s l = reads l := by
  refine occurrences_add (fun s a => ?_) s l
  rw [readHit, readMiss]
  cases s.hit a.1 <;> simp

/-- Writes hit or miss. -/
theorem occurrences_writes (s : CacheSim) (l : List Access) :
    occurrences writeHit s l + occurrences writeMiss s l = writes l := by
  refine occurrences_add (fun s a => ?_) s l
  rw [writeHit, writeMiss]
  cases s.hit a.1 <;> simp

/-- **The accounts of every trace.** -/
theorem accounts (c : Config) (hr : c.Regular) (rng : ℕ → ℕ) (l : List Access) :
    Accounts c rng l ((c.start rng).accesses l) := by
  have hs := fits_start c rng
  have hreads := occurrences_reads (c.start rng) l
  have hwrites := occurrences_writes (c.start rng) l
  have hrh := hs.accesses_counter (f := readHits) (fun s a _ => (counters_access s a).1) rfl l
  have hrm := hs.accesses_counter (f := readMisses) (fun s a _ => (counters_access s a).2.1) rfl l
  have hwh := hs.accesses_counter (f := writeHits)
    (fun s a _ => (counters_access s a).2.2.1) rfl l
  have hwm := hs.accesses_counter (f := writeMisses)
    (fun s a _ => (counters_access s a).2.2.2.1) rfl l
  have hwt := hs.accesses_counter (f := writeThroughs)
    (fun s a _ => (counters_access s a).2.2.2.2) rfl l
  have hwb := hs.accesses_counter (f := writeBacks)
    (fun s a hs => hs.writeBacks_access hr a) rfl l
  have hdirty := fun hback => dirties_eq hs hr (distinct_start c rng) hback
    (dirtyLines_start c rng) l
  refine ⟨?_, ?_, fun hthrough => ?_, fun hback => ?_, fun hback hno => ?_,
    fun hback hyes => ?_, fun hlen => ?_⟩
  · rw [hrh, hrm, ← BitVec.ofNat_add, hreads]
  · rw [hwh, hwm, ← BitVec.ofNat_add, hwrites]
  · obtain ⟨hclean, hbacks⟩ := clean_accesses hr hthrough rng l
    refine ⟨?_, hbacks, hclean⟩
    rw [hwt, hs.occurrences_congr (q := fun _ a => decide (a.2 = .WRITE)) (fun s a hs => ?_) l,
      occurrences_const, writes]
    rw [writesThrough, hs.writePolicy, hthrough]
    simp
  · rw [hwb, ← BitVec.ofNat_add, hdirty hback]
  · rw [hwt, hs.occurrences_congr (q := writeMiss) (fun s a hs => ?_) l]
    rw [writesThrough, writeMiss, hs.writePolicy, hs.allocPolicy, hback, hno]
    cases s.hit a.1 <;> simp
  · rw [hwt, hs.occurrences_congr (q := fun _ _ => false) (fun s a hs => ?_) l,
      occurrences_const (fun _ => false)]
    · rw [List.countP_false]
      rfl
    · rw [writesThrough, hs.writePolicy, hs.allocPolicy, hback, hyes]
      simp
  · -- no counter has wrapped
    have hexact : ∀ p, (BitVec.ofNat 64 (occurrences p (c.start rng) l)).toNat =
        occurrences p (c.start rng) l := by
      intro p
      rw [BitVec.toNat_ofNat]
      exact Nat.mod_eq_of_lt ((occurrences_le p _ l).trans_lt hlen)
    rw [hrh, hrm, hwh, hwm, hwb, hexact, hexact, hexact, hexact, hexact]
    exact ⟨hreads, hwrites, hdirty⟩

/-- The counters of three accesses. -/
theorem accounts_three : Accounts (twoWays .RANDOM) (fun n => n) threeAccesses
    (((twoWays .RANDOM).start fun n => n).accesses threeAccesses) :=
  accounts _ (twoWays_regular .RANDOM) _ _

end CacheSim

end Bailuwan
