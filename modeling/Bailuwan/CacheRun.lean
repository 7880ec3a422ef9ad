/-
# Runs of the cache simulator (`tracesim/cachesim/cachesim.cpp`)

The simulator is built from a configuration (`CacheSim.Config`) and replays a trace.  With a
block size and a number of sets that are powers of two the shifts and masks of `access` find
the set and the tag of a block by division (`Fits.index_eq`, `Fits.tag_eq`).  An access
replaces at most one line, and which one and by what is said once for a hit
(`Fits.access_of_hit`) and once for a miss (`Fits.access_of_miss`).
-/
import Bailuwan.CacheSim

namespace Bailuwan

open DirectMapped

namespace CacheSim

/-- The arguments of the constructor that its behaviour depends on. -/
structure Config where
  cacheSize : Word
  blockSize : Word
  setSize : Word
  replacementPolicy : ReplacementPolicy
  writePolicy : WritePolicy
  allocPolicy : AllocationPolicy

namespace Config

variable (c : Config) (addr : Word)

/-- The number of sets. -/
def numSets : Word := c.cacheSize / (c.blockSize * c.setSize)

/-- The simulator before the first access. -/
def start (rng : ℕ → ℕ) : CacheSim :=
  new c.cacheSize c.blockSize c.setSize c.replacementPolicy c.writePolicy c.allocPolicy rng

/-- Powers of two, as the simulator's shifts and masks presume. -/
structure Regular : Prop where
  block : ∃ b, c.blockSize.toNat = 2 ^ b
  sets : ∃ n, c.numSets.toNat = 2 ^ n

/-- The number of the block of an address, its set and its tag. -/
def block : ℕ := addr.toNat / c.blockSize.toNat

/-- The set an address belongs to. -/
def set : ℕ := c.block addr % c.numSets.toNat

/-- The tag of an address. -/
def tag : Word := BitVec.ofNat 32 (c.block addr / c.numSets.toNat)

variable {c}

/-- There is a set. -/
theorem Regular.numSets_pos (h : c.Regular) : 0 < c.numSets.toNat := by
  obtain ⟨n, hn⟩ := h.sets
  rw [hn]
  exact Nat.two_pow_pos n

/-- The division in the constructor is defined. -/
theorem Regular.size_pos (h : c.Regular) : 0 < (c.blockSize * c.setSize).toNat := by
  rcases Nat.eq_zero_or_pos (c.blockSize * c.setSize).toNat with h0 | hpos
  · have hsets := h.numSets_pos
    rw [numSets, BitVec.toNat_udiv, h0, Nat.div_zero] at hsets
    exact absurd hsets (lt_irrefl 0)
  · exact hpos

/-- A set has a line. -/
theorem Regular.setSize_pos (h : c.Regular) : 0 < c.setSize.toNat := by
  rcases Nat.eq_zero_or_pos c.setSize.toNat with h0 | hpos
  · have hsize := h.size_pos
    rw [BitVec.toNat_mul, h0] at hsize
    exact absurd hsize (by simp)
  · exact hpos

/-- The shifts of `access` are defined: they are by less than 32. -/
theorem Regular.bits_lt (h : c.Regular) : log2U32 c.blockSize + log2U32 c.numSets < 32 := by
  obtain ⟨b, hb⟩ := h.block
  obtain ⟨n, hn⟩ := h.sets
  rw [log2U32, log2U32, hb, hn, Nat.log2_two_pow, Nat.log2_two_pow]
  have hb32 : b < 32 := by
    rw [← Nat.pow_lt_pow_iff_right (a := 2) (by decide), ← hb]
    exact c.blockSize.isLt
  -- the product that is divided by is a multiple of the block size, also where it wraps
  have hdvd : 2 ^ b ∣ (c.blockSize * c.setSize).toNat := by
    rw [BitVec.toNat_mul, hb]
    exact (Nat.dvd_mod_iff (pow_dvd_pow 2 hb32.le)).mpr (Dvd.intro _ rfl)
  have hle := Nat.le_of_dvd h.size_pos hdvd
  have hmul : 2 ^ n * 2 ^ b ≤ c.cacheSize.toNat := by
    rw [← hn, numSets, BitVec.toNat_udiv]
    exact (Nat.mul_le_mul_left _ hle).trans (Nat.div_mul_le_self ..)
  rw [← Nat.pow_lt_pow_iff_right (a := 2) (by decide), pow_add, mul_comm]
  exact hmul.trans_lt c.cacheSize.isLt

/-- Set and tag determine the block. -/
theorem block_eq_iff (a b : Word) :
    c.block a = c.block b ↔ c.set a = c.set b ∧ c.tag a = c.tag b := by
  have hlt : ∀ x : Word, c.block x / c.numSets.toNat < 2 ^ 32 := fun x =>
    ((Nat.div_le_self ..).trans (Nat.div_le_self ..)).trans_lt x.isLt
  constructor
  · intro heq
    rw [set, set, tag, tag, heq]
    exact ⟨rfl, rfl⟩
  · rintro ⟨hset, htag⟩
    have hdiv : c.block a / c.numSets.toNat = c.block b / c.numSets.toNat := by
      have := congrArg BitVec.toNat htag
      rwa [tag, tag, BitVec.toNat_ofNat, BitVec.toNat_ofNat, Nat.mod_eq_of_lt (hlt a),
        Nat.mod_eq_of_lt (hlt b)] at this
    rw [← Nat.div_add_mod (c.block a) c.numSets.toNat, hdiv, show _ % _ = _ % _ from hset,
      Nat.div_add_mod]

end Config

/-- One line of the trace. -/
abbrev Access := Word × AccessType

/-- The simulator after a trace. -/
def accesses (s : CacheSim) (l : List Access) : CacheSim := l.foldl (fun s a => s.access a.1 a.2) s

/-- How often `p` holds in a trace of the access that is made. -/
def occurrences (p : CacheSim → Access → Bool) (s : CacheSim) (l : List Access) : ℕ :=
  (outputs p (fun s a => s.access a.1 a.2) s l).count true

variable {c : Config} {s : CacheSim} {l : List Access} {a : Access}

/-- The state after one access more. -/
theorem accesses_concat : s.accesses (l ++ [a]) = (s.accesses l).access a.1 a.2 := by
  rw [accesses, List.foldl_append]
  rfl

/-- The number of occurrences after one access more. -/
theorem occurrences_concat {p : CacheSim → Access → Bool} :
    occurrences p s (l ++ [a]) = occurrences p s l + if p (s.accesses l) a then 1 else 0 := by
  rw [occurrences, outputs_concat, List.count_append, List.count_singleton]
  rw [occurrences, accesses]
  cases p _ a <;> rfl

/-! ### The configuration of a state -/

/-- A state of a simulator with the configuration. -/
structure Fits (c : Config) (s : CacheSim) : Prop where
  setSize : s.setSize = c.setSize
  offsetBits : s.offsetBits = log2U32 c.blockSize
  indexBits : s.indexBits = log2U32 c.numSets
  indexMask : s.indexMask = c.numSets - 1
  replacementPolicy : s.replacementPolicy = c.replacementPolicy
  writePolicy : s.writePolicy = c.writePolicy
  allocPolicy : s.allocPolicy = c.allocPolicy
  length : ∀ i, (s.sets i).length = c.setSize.toNat

/-- The simulator begins in the shape of its configuration. -/
theorem fits_start (c : Config) (rng : ℕ → ℕ) : Fits c (c.start rng) where
  setSize := rfl
  offsetBits := rfl
  indexBits := rfl
  indexMask := rfl
  replacementPolicy := rfl
  writePolicy := rfl
  allocPolicy := rfl
  length := fun _ => List.length_replicate

/-- The simulator with its clock advanced. -/
def tick (s : CacheSim) : CacheSim := { s with clock := s.clock + 1 }

/-- A line of a set is changed. -/
theorem length_update_modify {sets : Word → List CacheLine} {n w : ℕ} {i : Word}
    {f : CacheLine → CacheLine} (h : ∀ i, (sets i).length = n) (j : Word) :
    (Function.update sets i ((sets i).modify w f) j).length = n := by
  by_cases hj : j = i
  · subst hj
    rw [Function.update_self, List.length_modify, h]
  · rw [Function.update_of_ne hj, h]

/-- A hit keeps the shape. -/
theorem Fits.onHit {addr : Word} {type : AccessType} {w : ℕ} (h : Fits c s) :
    Fits c (s.onHit addr type w) :=
  ⟨h.1, h.2, h.3, h.4, h.5, h.6, h.7, length_update_modify h.8⟩

/-- A miss keeps the shape. -/
theorem Fits.onMiss {addr : Word} {type : AccessType} (h : Fits c s) :
    Fits c (s.onMiss addr type) := by
  by_cases hw : type = .WRITE ∧ s.allocPolicy = .NO_WRITE_ALLOCATE
  · rw [CacheSim.onMiss, if_pos hw]
    exact ⟨h.1, h.2, h.3, h.4, h.5, h.6, h.7, h.8⟩
  · rw [CacheSim.onMiss, if_neg hw]
    exact ⟨h.1, h.2, h.3, h.4, h.5, h.6, h.7, length_update_modify h.8⟩

/-- An access that finds a way is a hit. -/
theorem access_of_way {addr : Word} {w : ℕ} (type : AccessType) (h : s.way addr = some w) :
    s.access addr type = s.tick.onHit addr type w := by
  unfold access
  dsimp only
  split
  · next w' hw =>
      obtain rfl : w = w' := Option.some_inj.mp (h.symm.trans hw)
      rfl
  · next hw => exact absurd (h.symm.trans hw) (Option.some_ne_none w)

/-- An access that finds none is a miss. -/
theorem access_of_no_way {addr : Word} (type : AccessType) (h : s.way addr = none) :
    s.access addr type = s.tick.onMiss addr type := by
  unfold access
  dsimp only
  split
  · next w hw => exact absurd (hw.symm.trans h) (Option.some_ne_none w)
  · rfl

/-- **One access** keeps the shape. -/
theorem Fits.access {addr : Word} {type : AccessType} (h : Fits c s) :
    Fits c (s.access addr type) := by
  have htick : Fits c s.tick := ⟨h.1, h.2, h.3, h.4, h.5, h.6, h.7, h.8⟩
  cases hway : s.way addr with
  | none =>
      rw [access_of_no_way type hway]
      exact htick.onMiss
  | some w =>
      rw [access_of_way type hway]
      exact htick.onHit

/-- A trace keeps the shape. -/
theorem Fits.accesses (h : Fits c s) (l : List Access) : Fits c (s.accesses l) := by
  induction l using List.reverseRecOn with
  | nil => exact h
  | append_singleton l a ih =>
      rw [accesses_concat]
      exact ih.access

/-- The set of an address, as the simulator computes it with shifts and masks. -/
theorem Fits.index_eq (h : Fits c s) (hr : c.Regular) (addr : Word) :
    (s.index addr).toNat = c.set addr := by
  obtain ⟨b, hb⟩ := hr.block
  obtain ⟨n, hn⟩ := hr.sets
  have hmask : (c.numSets - 1).toNat = 2 ^ n - 1 := by
    rw [BitVec.toNat_sub_of_le (by rw [BitVec.le_def]; exact hr.numSets_pos), hn]
    rfl
  rw [index, h.offsetBits, h.indexMask, BitVec.toNat_and, hmask, Nat.and_two_pow_sub_one_eq_mod,
    BitVec.toNat_ushiftRight, Nat.shiftRight_eq_div_pow, log2U32, hb, Nat.log2_two_pow,
    Config.set, Config.block, hb, hn]

/-- The tag of an address, as it computes it. -/
theorem Fits.tag_eq (h : Fits c s) (hr : c.Regular) (addr : Word) : s.tag addr = c.tag addr := by
  obtain ⟨b, hb⟩ := hr.block
  obtain ⟨n, hn⟩ := hr.sets
  apply BitVec.eq_of_toNat_eq
  have hlt : addr.toNat / 2 ^ b / 2 ^ n < 2 ^ 32 :=
    ((Nat.div_le_self ..).trans (Nat.div_le_self ..)).trans_lt addr.isLt
  rw [tag, h.offsetBits, h.indexBits, BitVec.toNat_ushiftRight, Nat.shiftRight_eq_div_pow,
    log2U32, log2U32, hb, hn, Nat.log2_two_pow, Nat.log2_two_pow, pow_add, ← Nat.div_div_eq_div_mul,
    Config.tag, Config.block, hb, hn, BitVec.toNat_ofNat, Nat.mod_eq_of_lt hlt]

/-- Simulators that agree on the set of an address look for it at the same index. -/
theorem Fits.index_congr {c' : Config} {s' : CacheSim} (h : Fits c s) (hr : c.Regular)
    (h' : Fits c' s') (hr' : c'.Regular) {addr : Word} (hset : c'.set addr = c.set addr) :
    s'.index addr = s.index addr := by
  apply BitVec.eq_of_toNat_eq
  rw [h'.index_eq hr', h.index_eq hr, hset]

/-- Simulators of one configuration compute the same tags. -/
theorem Fits.tag_congr {c' : Config} {s' : CacheSim} (h : Fits c s) (hr : c.Regular)
    (h' : Fits c' s') (hr' : c'.Regular) {addr : Word} (htag : c'.tag addr = c.tag addr) :
    s'.tag addr = s.tag addr := by
  rw [h'.tag_eq hr', h.tag_eq hr, htag]

/-- The set exists. -/
theorem Fits.index_lt (h : Fits c s) (hr : c.Regular) (addr : Word) :
    (s.index addr).toNat < c.numSets.toNat := by
  rw [h.index_eq hr]
  exact Nat.mod_lt _ hr.numSets_pos

/-! ### The line that is accessed -/

/-- The tags of the lines in use. -/
def validTags (lines : List CacheLine) : List Word :=
  (lines.filter fun line => line.valid).map fun line => line.tag

variable {addr : Word} {type : AccessType} {lines A B : List CacheLine} {x y : CacheLine}
  {t : Word}

/-- The tags of a set are those of its valid lines. -/
theorem mem_validTags_iff : t ∈ validTags lines ↔ ∃ x ∈ lines, x.valid = true ∧ x.tag = t := by
  simp [validTags, and_assoc]

/-- A hit is a tag of the set. -/
theorem hit_iff : s.hit addr = true ↔ s.tag addr ∈ validTags (s.currentSet addr) := by
  rw [hit, way, List.findIdx?_isSome, List.any_eq_true, mem_validTags_iff]
  simp only [Bool.and_eq_true, beq_iff_eq]

/-- The least of some lines is one of them, and no other one is older. -/
theorem minElement_spec (h : lines ≠ []) : minElement lines < lines.length ∧
    ∀ x ∈ lines, (lines.getD (minElement lines) {}).timestamp.toNat ≤ x.timestamp.toNat := by
  induction lines with
  | nil => exact absurd rfl h
  | cons y lines ih =>
      cases lines with
      | nil => simp [minElement]
      | cons z lines =>
          obtain ⟨hlt, hle⟩ := ih (List.cons_ne_nil z lines)
          have hcons : minElement (y :: z :: lines) =
              if ((z :: lines).getD (minElement (z :: lines)) {}).timestamp < y.timestamp
                then minElement (z :: lines) + 1 else 0 := rfl
          rw [hcons]
          split_ifs with hmin
          · refine ⟨Nat.succ_lt_succ hlt, fun x hx => ?_⟩
            rw [List.getD_cons_succ]
            rcases List.mem_cons.mp hx with rfl | hx
            · exact (BitVec.lt_def.mp hmin).le
            · exact hle x hx
          · refine ⟨Nat.succ_pos _, fun x hx => ?_⟩
            rw [List.getD_cons_zero]
            rcases List.mem_cons.mp hx with rfl | hx
            · exact le_rfl
            · rw [BitVec.lt_def, not_lt] at hmin
              exact hmin.trans (hle x hx)

/-- The line at a place is changed and no other. -/
theorem modify_append (A : List CacheLine) (f : CacheLine → CacheLine) :
    (A ++ x :: B).modify A.length f = A ++ f x :: B := by
  induction A with
  | nil => rfl
  | cons y A ih => exact congrArg (y :: ·) ih

/-- An access that does not hit is a miss. -/
theorem access_of_miss (type : AccessType) (h : s.hit addr = false) :
    s.access addr type = s.tick.onMiss addr type :=
  access_of_no_way type (Option.not_isSome_iff_eq_none.mp (ne_true_of_eq_false h))

/-- A miss that does not allocate leaves the lines alone. -/
theorem access_of_noAllocate (h : s.hit addr = false)
    (hno : type = .WRITE ∧ s.allocPolicy = .NO_WRITE_ALLOCATE) :
    (s.access addr type).writeBacks = s.writeBacks ∧ (s.access addr type).sets = s.sets := by
  have htick : type = .WRITE ∧ s.tick.allocPolicy = .NO_WRITE_ALLOCATE := hno
  rw [access_of_miss _ h, onMiss, if_pos htick]
  exact ⟨rfl, rfl⟩

/-- **A hit** touches the line of the block. -/
theorem access_of_hit (type : AccessType) (h : s.hit addr = true) : ∃ w A x B,
    s.currentSet addr = A ++ x :: B ∧ x.valid = true ∧ x.tag = s.tag addr ∧
      s.access addr type = s.tick.onHit addr type w ∧
        (s.access addr type).sets =
          Function.update s.sets (s.index addr) (A ++ s.tick.touch type x :: B) := by
  obtain ⟨w, hw⟩ := Option.isSome_iff_exists.mp h
  have haccess := access_of_way type hw
  obtain ⟨hlt, hx, -⟩ := List.findIdx?_eq_some_iff_getElem.mp hw
  obtain ⟨A, x, B, hlines, hlen, hmodify⟩ := List.exists_of_modify (s.tick.touch type) hlt
  have hget : (s.currentSet addr)[w] = x := by
    simp only [hlines, ← hlen, List.getElem_append_right, Nat.le_refl, Nat.sub_self,
      List.getElem_cons_zero]
  rw [hget, Bool.and_eq_true, beq_iff_eq] at hx
  refine ⟨w, A, x, B, hlines, hx.1, hx.2, haccess, ?_⟩
  rw [haccess, ← hmodify]
  rfl

/-- The victim is a line of the set; it is empty if one is, and else the oldest one if the
policy says so. -/
theorem Fits.victim_spec (h : Fits c s) (hr : c.Regular) (addr : Word) : ∃ A x B,
    s.currentSet addr = A ++ x :: B ∧ A.length = s.victim addr ∧
      (x.valid = true → (∀ y ∈ s.currentSet addr, y.valid = true) ∧
        (s.replacementPolicy ≠ .RANDOM →
          ∀ y ∈ s.currentSet addr, x.timestamp.toNat ≤ y.timestamp.toNat)) := by
  have hlen : (s.currentSet addr).length = c.setSize.toNat := h.length (s.index addr)
  have hpos := hr.setSize_pos
  -- the line at a way
  have hsplit : ∀ w, w < (s.currentSet addr).length → ∃ A x B,
      s.currentSet addr = A ++ x :: B ∧ A.length = w ∧
        x = (s.currentSet addr).getD w {} := by
    intro w hw
    obtain ⟨A, x, B, hlines, rfl, -⟩ := List.exists_of_modify id hw
    exact ⟨A, x, B, hlines, rfl, by simp [hlines]⟩
  rw [victim]
  cases hempty : (s.currentSet addr).findIdx? fun line => !line.valid with
  | some w =>
      obtain ⟨hlt, hx, -⟩ := List.findIdx?_eq_some_iff_getElem.mp hempty
      obtain ⟨A, x, B, hlines, hA, hget⟩ := hsplit w hlt
      refine ⟨A, x, B, hlines, hA, fun hvalid => ?_⟩
      rw [List.getD_eq_getElem _ _ hlt] at hget
      rw [← hget, hvalid] at hx
      exact absurd hx (by decide)
  | none =>
      have hall : ∀ y ∈ s.currentSet addr, y.valid = true := by
        simpa using List.findIdx?_eq_none_iff.mp hempty
      by_cases hrandom : s.replacementPolicy = .RANDOM
      · have hdraw : s.draw < (s.currentSet addr).length := by
          have hmod := Nat.mod_lt (s.rng 0) (Nat.succ_pos (s.setSize - 1).toNat)
          have hone : (s.setSize - 1).toNat + 1 = c.setSize.toNat := by
            rw [h.setSize, BitVec.toNat_sub_of_le (by rw [BitVec.le_def]; exact hpos)]
            exact Nat.sub_add_cancel hpos
          rw [hlen, ← hone]
          exact hmod
        obtain ⟨A, x, B, hlines, hA, -⟩ := hsplit s.draw hdraw
        refine ⟨A, x, B, hlines, ?_, fun _ => ⟨hall, fun hne => absurd hrandom hne⟩⟩
        rw [hA]
        exact (if_pos hrandom).symm
      · have hne : s.currentSet addr ≠ [] := List.ne_nil_of_length_pos (by omega)
        obtain ⟨hlt, hle⟩ := minElement_spec hne
        obtain ⟨A, x, B, hlines, hA, hget⟩ := hsplit _ hlt
        refine ⟨A, x, B, hlines, ?_, fun _ => ⟨hall, fun _ => hget ▸ hle⟩⟩
        rw [hA]
        exact (if_neg hrandom).symm

/-- **A miss that allocates** replaces the victim. -/
theorem Fits.access_of_allocate (h : Fits c s) (hr : c.Regular) (hmiss : s.hit addr = false)
    (halloc : ¬ (type = .WRITE ∧ s.allocPolicy = .NO_WRITE_ALLOCATE)) : ∃ A x B,
    s.currentSet addr = A ++ x :: B ∧
      (x.valid = true → (∀ y ∈ s.currentSet addr, y.valid = true) ∧
        (s.replacementPolicy ≠ .RANDOM →
          ∀ y ∈ s.currentSet addr, x.timestamp.toNat ≤ y.timestamp.toNat)) ∧
      (s.access addr type).sets =
        Function.update s.sets (s.index addr) (A ++ s.tick.refill addr type :: B) ∧
      (s.access addr type).writeBacks =
        if x.valid ∧ x.dirty ∧ s.writePolicy = .WRITE_BACK then s.writeBacks + 1
        else s.writeBacks := by
  obtain ⟨A, x, B, hlines, hA, hx⟩ := h.victim_spec hr addr
  have hget : (s.currentSet addr).getD (s.victim addr) {} = x := by
    rw [hlines, ← hA]
    simp
  have hmodify : (s.currentSet addr).modify (s.victim addr) (fun _ => s.tick.refill addr type) =
      A ++ s.tick.refill addr type :: B := by
    rw [hlines, ← hA, modify_append]
  have htick : ¬ (type = .WRITE ∧ s.tick.allocPolicy = .NO_WRITE_ALLOCATE) := halloc
  refine ⟨A, x, B, hlines, hx, ?_, ?_⟩
  · rw [access_of_miss type hmiss, CacheSim.onMiss, if_neg htick, ← hmodify]
    rfl
  · rw [access_of_miss type hmiss, CacheSim.onMiss, if_neg htick]
    change (if ((s.currentSet addr).getD (s.victim addr) {}).valid ∧
      ((s.currentSet addr).getD (s.victim addr) {}).dirty ∧ s.writePolicy = .WRITE_BACK then _
        else _) = _
    rw [hget]
    rfl

/-- Two ways and four sets, and accesses to two blocks. -/
def twoWays (replPolicy : ReplacementPolicy) : Config where
  cacheSize := 128
  blockSize := 16
  setSize := 2
  replacementPolicy := replPolicy
  writePolicy := .WRITE_BACK
  allocPolicy := .WRITE_ALLOCATE

/-- A read that misses, a write that misses in another set, and a read that hits. -/
def threeAccesses : List Access :=
  [(0x30000000, .READ), (0x30000040, .WRITE), (0x30000004, .READ)]

/-- The configuration of the example. -/
theorem twoWays_regular (replPolicy : ReplacementPolicy) : (twoWays replPolicy).Regular where
  block := ⟨4, rfl⟩
  sets := ⟨2, by cases replPolicy <;> decide⟩

end CacheSim

end Bailuwan
