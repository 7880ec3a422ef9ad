/-
# The cache simulator (`tracesim/cachesim/cachesim.cpp`)

`CacheSim` replays a trace of addresses on a set-associative cache, one access after the
other.  With one way it is a direct-mapped cache under every replacement policy, and so is
the instruction cache in the long run of its fills: both have the same hits
(`ICache.hits_eq_cacheSim`), as long as no request is killed in the cycle in which it is
accepted.  The fetch unit never does that (`IFU.not_killed_of_reqFire`).
-/
import Bailuwan.DirectMapped
import Bailuwan.ICacheCorrect
import Bailuwan.IFU

namespace Bailuwan

open Synchronous AXI4 DirectMapped

/-! ## The simulator -/

/-- What the trace says of an access. -/
inductive AccessType
  | READ
  | WRITE
  deriving DecidableEq, Repr

/-- Which line of a set is replaced. -/
inductive ReplacementPolicy
  | FIFO
  | LRU
  | RANDOM
  deriving DecidableEq, Repr

/-- When a write goes to memory. -/
inductive WritePolicy
  | WRITE_BACK
  | WRITE_THROUGH
  deriving DecidableEq, Repr

/-- Whether a write that misses takes a line. -/
inductive AllocationPolicy
  | WRITE_ALLOCATE
  | NO_WRITE_ALLOCATE
  deriving DecidableEq, Repr

/-- A line of the cache; there is no data. -/
structure CacheLine where
  valid : Bool := false
  dirty : Bool := false
  tag : Word := 0
  timestamp : BitVec 64 := 0
  deriving DecidableEq, Repr

/-- The state; `rng` are the numbers that the random number generator is going to give. -/
structure CacheSim where
  readHits : BitVec 64
  readMisses : BitVec 64
  writeHits : BitVec 64
  writeMisses : BitVec 64
  writeBacks : BitVec 64
  writeThroughs : BitVec 64
  setSize : Word
  indexBits : ℕ
  offsetBits : ℕ
  indexMask : Word
  replacementPolicy : ReplacementPolicy
  writePolicy : WritePolicy
  allocPolicy : AllocationPolicy
  sets : Word → List CacheLine
  clock : BitVec 64
  rng : ℕ → ℕ

namespace CacheSim

/-- `log2_u32`: how often `n` can be halved. -/
def log2U32 (n : Word) : ℕ := Nat.log2 n.toNat

/-- The constructor. -/
def new (cacheSize blockSize setSize : Word) (replPolicy : ReplacementPolicy)
    (writePolicy : WritePolicy) (allocPolicy : AllocationPolicy) (rng : ℕ → ℕ) : CacheSim where
  readHits := 0
  readMisses := 0
  writeHits := 0
  writeMisses := 0
  writeBacks := 0
  writeThroughs := 0
  setSize := setSize
  indexBits := log2U32 (cacheSize / (blockSize * setSize))
  offsetBits := log2U32 blockSize
  indexMask := cacheSize / (blockSize * setSize) - 1
  replacementPolicy := replPolicy
  writePolicy := writePolicy
  allocPolicy := allocPolicy
  sets := fun _ => List.replicate setSize.toNat {}
  clock := 0
  rng := rng

variable (s : CacheSim) (addr : Word) (type : AccessType)

/-- The set of an address. -/
def index : Word := (addr >>> s.offsetBits) &&& s.indexMask

/-- The tag of an address. -/
def tag : Word := addr >>> (s.offsetBits + s.indexBits)

/-- `current_set`. -/
def currentSet : List CacheLine := s.sets (s.index addr)

/-- The way that holds the block. -/
def way : Option ℕ := (s.currentSet addr).findIdx? fun line => line.valid && line.tag == s.tag addr

/-- An access hits. -/
def hit : Bool := (s.way addr).isSome

/-- The line after a hit. -/
def touch (line : CacheLine) : CacheLine :=
  { line with
    dirty := if type = .WRITE ∧ s.writePolicy = .WRITE_BACK then true else line.dirty
    timestamp := if s.replacementPolicy = .LRU then s.clock else line.timestamp }

/-- The counters and the line after a hit in way `w`. -/
def onHit (w : ℕ) : CacheSim :=
  { s with
    readHits := if type = .READ then s.readHits + 1 else s.readHits
    writeHits := if type = .WRITE then s.writeHits + 1 else s.writeHits
    writeThroughs := if type = .WRITE ∧ s.writePolicy ≠ .WRITE_BACK then s.writeThroughs + 1
      else s.writeThroughs
    sets := Function.update s.sets (s.index addr)
      ((s.currentSet addr).modify w (s.touch type)) }

/-- `std::min_element` by timestamp: the first of the least. -/
def minElement : List CacheLine → ℕ
  | [] => 0
  | [_] => 0
  | line :: lines =>
      if (lines.getD (minElement lines) {}).timestamp < line.timestamp then minElement lines + 1
      else 0

/-- The next draw of `uniform_int_distribution(0, set_size - 1)`. -/
def draw : ℕ := s.rng 0 % ((s.setSize - 1).toNat + 1)

/-- `victim_it`: an empty line, else one that the policy chooses. -/
def victim : ℕ :=
  match (s.currentSet addr).findIdx? fun line => !line.valid with
  | some w => w
  | none => if s.replacementPolicy = .RANDOM then s.draw else minElement (s.currentSet addr)

/-- The random number generator moves on if it was asked for the victim. -/
def nextRng : ℕ → ℕ :=
  if ((s.currentSet addr).findIdx? fun line => !line.valid) = none ∧
      s.replacementPolicy = .RANDOM then fun n => s.rng (n + 1) else s.rng

/-- The victim after it is replaced. -/
def refill : CacheLine where
  valid := true
  dirty := decide (type = .WRITE ∧ s.writePolicy = .WRITE_BACK)
  tag := s.tag addr
  timestamp := s.clock

/-- The counters and the set after a miss. -/
def onMiss : CacheSim :=
  let s' : CacheSim :=
    { s with
      readMisses := if type = .READ then s.readMisses + 1 else s.readMisses
      writeMisses := if type = .WRITE then s.writeMisses + 1 else s.writeMisses }
  if type = .WRITE ∧ s.allocPolicy = .NO_WRITE_ALLOCATE then
    { s' with writeThroughs := s.writeThroughs + 1 }
  else
    let line := (s.currentSet addr).getD (s.victim addr) {}
    { s' with
      writeBacks := if line.valid ∧ line.dirty ∧ s.writePolicy = .WRITE_BACK
        then s.writeBacks + 1 else s.writeBacks
      writeThroughs := if type = .WRITE ∧ s.writePolicy ≠ .WRITE_BACK then s.writeThroughs + 1
        else s.writeThroughs
      sets := Function.update s.sets (s.index addr)
        ((s.currentSet addr).modify (s.victim addr) fun _ => s.refill addr type)
      rng := s.nextRng addr }

/-- `CacheSim::access`. -/
def access : CacheSim :=
  let s := { s with clock := s.clock + 1 }
  match s.way addr with
  | some w => s.onHit addr type w
  | none => s.onMiss addr type

/-- The hits and misses of a trace of reads. -/
def readHitList : List Word → List Bool := outputs hit (fun s a => s.access a .READ) s

/-! ### One way -/

/-- The sets of a cache of one way hold the given contents. -/
structure Represents (s : CacheSim) (m : Contents (BitVec 2) (BitVec 26)) : Prop where
  offsetBits : s.offsetBits = 4
  indexBits : s.indexBits = 2
  indexMask : s.indexMask = 3
  setSize : s.setSize = 1
  sets : ∀ k : BitVec 2, ∃ line, s.sets (k.setWidth 32) = [line] ∧
    line.valid = (m k).isSome ∧ ∀ t ∈ m k, line.tag = t.setWidth 32

/-- The line and the tag of an address. -/
def key (addr : Word) : BitVec 2 × BitVec 26 := (indexOf addr, tagOf addr)

variable {s addr} {m : Contents (BitVec 2) (BitVec 26)}

/-- A new simulator is empty. -/
theorem represents_new (replPolicy : ReplacementPolicy) (writePolicy : WritePolicy)
    (allocPolicy : AllocationPolicy) (rng : ℕ → ℕ) :
    Represents (new 64 16 1 replPolicy writePolicy allocPolicy rng) Contents.empty where
  offsetBits := rfl
  indexBits := rfl
  indexMask := rfl
  setSize := rfl
  sets := fun _ => ⟨{}, rfl, rfl, fun t ht => by cases ht⟩

/-- The simulator computes the index of the hardware. -/
theorem Represents.index_eq (h : Represents s m) (addr : Word) :
    s.index addr = (indexOf addr).setWidth 32 := by
  rw [index, h.offsetBits, h.indexMask]
  apply BitVec.eq_of_toNat_eq
  have hk := (indexOf addr).isLt
  rw [BitVec.toNat_and, BitVec.toNat_setWidth, toNat_indexOf, BitVec.toNat_ushiftRight,
    Nat.shiftRight_eq_div_pow]
  have hmask := Nat.and_two_pow_sub_one_eq_mod (addr.toNat / 2 ^ 4) 2
  have h3 : BitVec.toNat (3 : Word) = 2 ^ 2 - 1 := rfl
  rw [h3, hmask]
  omega

/-- It computes the tag of the hardware. -/
theorem Represents.tag_eq (h : Represents s m) (addr : Word) :
    s.tag addr = (tagOf addr).setWidth 32 := by
  rw [tag, h.offsetBits, h.indexBits]
  apply BitVec.eq_of_toNat_eq
  have hlt := addr.isLt
  rw [BitVec.toNat_ushiftRight, BitVec.toNat_setWidth, toNat_tagOf, Nat.shiftRight_eq_div_pow]
  omega

/-- Extension to a wider word loses nothing. -/
theorem setWidth_inj {v w : ℕ} (h : v ≤ w) {a b : BitVec v} :
    a.setWidth w = b.setWidth w ↔ a = b := by
  refine ⟨fun heq => ?_, fun heq => by rw [heq]⟩
  have hback := congrArg (BitVec.setWidth v) heq
  rwa [BitVec.setWidth_setWidth_of_le _ h, BitVec.setWidth_setWidth_of_le _ h,
    BitVec.setWidth_eq, BitVec.setWidth_eq] at hback

/-- The only line of the set of an address, and whether the address hits there. -/
theorem Represents.line (h : Represents s m) (addr : Word) : ∃ line,
    s.currentSet addr = [line] ∧
      (line.valid && line.tag == s.tag addr) = m.hits (key addr) := by
  obtain ⟨line, hset, hvalid, htag⟩ := h.sets (indexOf addr)
  refine ⟨line, by rw [currentSet, h.index_eq, hset], ?_⟩
  rw [hvalid, h.tag_eq, Contents.hits, key]
  cases hm : m (indexOf addr) with
  | none => rfl
  | some t =>
      have hinj : t.setWidth 32 = (tagOf addr).setWidth 32 ↔ t = tagOf addr :=
        setWidth_inj (by decide)
      rw [htag t (by rw [hm]; rfl), beq_eq_decide]
      simp [hinj]

/-- The simulator hits where its contents do. -/
theorem Represents.hit_eq (h : Represents s m) (addr : Word) :
    s.hit addr = m.hits (key addr) := by
  obtain ⟨line, hset, hline⟩ := h.line addr
  rw [hit, way, hset, ← hline, List.findIdx?_singleton]
  cases line.valid && line.tag == s.tag addr <;> rfl

/-- With one way the victim is that way, whatever the policy. -/
theorem Represents.victim_eq (h : Represents s m) (addr : Word) : s.victim addr = 0 := by
  obtain ⟨line, hset, -⟩ := h.line addr
  rw [victim, hset, List.findIdx?_singleton, draw, h.setSize]
  cases line.valid <;> simp [minElement, Nat.mod_one]

/-- One set changes. -/
theorem Represents.update (h : Represents s m) {s' : CacheSim}
    {m' : Contents (BitVec 2) (BitVec 26)} (line : CacheLine)
    (hs : s'.sets = Function.update s.sets (s.index addr) [line])
    (hm : ∀ k, k ≠ indexOf addr → m' k = m k)
    (hvalid : line.valid = (m' (indexOf addr)).isSome)
    (htag : ∀ t ∈ m' (indexOf addr), line.tag = t.setWidth 32)
    (hconst : s'.offsetBits = s.offsetBits ∧ s'.indexBits = s.indexBits ∧
      s'.indexMask = s.indexMask ∧ s'.setSize = s.setSize) : Represents s' m' where
  offsetBits := hconst.1.trans h.offsetBits
  indexBits := hconst.2.1.trans h.indexBits
  indexMask := hconst.2.2.1.trans h.indexMask
  setSize := hconst.2.2.2.trans h.setSize
  sets k := by
    rw [hs, h.index_eq]
    by_cases hk : k = indexOf addr
    · subst hk
      exact ⟨line, by rw [Function.update_self], hvalid, htag⟩
    · rw [Function.update_of_ne fun heq => hk ((setWidth_inj (by decide)).mp heq), hm k hk]
      exact h.sets k

/-- A hit touches the line, which keeps its block. -/
theorem Represents.onHit (h : Represents s m) (hhit : m.hits (key addr) = true) :
    Represents (s.onHit addr .READ 0) (m.access (key addr)) := by
  rw [Contents.access_of_hits hhit]
  obtain ⟨line, hset, -⟩ := h.line addr
  obtain ⟨line', hset', hvalid, htag⟩ := h.sets (indexOf addr)
  have heq : line' = line := by
    rw [currentSet, h.index_eq, hset'] at hset
    exact List.singleton_inj.mp hset
  subst heq
  refine h.update (s.touch .READ line') ?_ (fun _ _ => rfl) hvalid htag
    ⟨rfl, rfl, rfl, rfl⟩
  simp only [CacheSim.onHit, hset]
  rfl

/-- A miss puts the block in the line. -/
theorem Represents.onMiss (h : Represents s m) (addr : Word) :
    Represents (s.onMiss addr .READ) (m.access (key addr)) := by
  obtain ⟨line, hset, -⟩ := h.line addr
  have hread : ¬ (AccessType.READ = .WRITE ∧ s.allocPolicy = .NO_WRITE_ALLOCATE) := by
    intro h
    cases h.1
  have hself : m.access (key addr) (indexOf addr) = some (tagOf addr) := Function.update_self ..
  rw [CacheSim.onMiss, if_neg hread]
  refine h.update (s.refill addr .READ) ?_ (fun k hk => Function.update_of_ne hk ..)
    (by rw [hself]; rfl) (fun t ht => ?_) ⟨rfl, rfl, rfl, rfl⟩
  · simp only [h.victim_eq, hset]
    rfl
  · rw [hself, Option.mem_some_iff] at ht
    rw [← ht]
    exact h.tag_eq addr

/-- **An access of the simulator** is an access of the direct-mapped cache. -/
theorem Represents.access (h : Represents s m) (addr : Word) :
    Represents (s.access addr .READ) (m.access (key addr)) := by
  have h' : Represents { s with clock := s.clock + 1 } m := ⟨h.1, h.2, h.3, h.4, h.5⟩
  have hhit := h'.hit_eq addr
  obtain ⟨line, hset, -⟩ := h'.line addr
  rw [CacheSim.access]
  cases hw : way { s with clock := s.clock + 1 } addr with
  | none => exact h'.onMiss addr
  | some w =>
      rw [hit, hw] at hhit
      have hw0 : w = 0 := by
        rw [way, hset, List.findIdx?_singleton] at hw
        split_ifs at hw
        exact (Option.some_inj.mp hw).symm
      subst hw0
      exact h'.onHit hhit.symm

/-- **The simulator with one way** hits as the direct-mapped cache does. -/
theorem readHitList_new (replPolicy : ReplacementPolicy) (writePolicy : WritePolicy)
    (allocPolicy : AllocationPolicy) (rng : ℕ → ℕ) (l : List Word) :
    (new 64 16 1 replPolicy writePolicy allocPolicy rng).readHitList l =
      hitList Contents.empty (l.map key) :=
  outputs_eq_hitList (R := Represents) (fun _ _ a h => ⟨h.hit_eq a, h.access a⟩)
    (represents_new replPolicy writePolicy allocPolicy rng) l

end CacheSim

/-! ## The instruction cache -/

namespace ICache

variable {α : Type*} {c : ICache α} {i : ICacheIn α}

/-- A block is on its way to its line. -/
def Filling (c : ICache α) : Prop := c.state = .fillAddr ∨ c.state = .waitMem

instance : Decidable c.Filling := inferInstanceAs (Decidable (_ ∨ _))

/-- The blocks the cache holds, or is about to hold. -/
def contents (c : ICache α) : Contents (BitVec 2) (BitVec 26) := fun k =>
  if c.Filling ∧ c.fillIndex = k then some c.fillTag
  else if c.validStorage k then some (c.tagStorage k) else none

/-- The addresses of the accepted requests, and whether they hit. -/
def acceptedAddrs (r : (machine α).Run) : ℕ → List Word :=
  r.log fun c i => if c.reqFire i then [i.req.bits.addr] else []

/-- For each request the cache has accepted, whether it was a hit. -/
def acceptedHits (r : (machine α).Run) : ℕ → List Bool :=
  r.log fun c i => if c.reqFire i then [c.hit i] else []

/-- No flush, only OKAY fills, and no request is killed in the cycle in which it is accepted
and misses. -/
structure Undisturbed (r : (machine α).Run) : Prop where
  noFlush : ∀ t, (r.inp t).flush = false
  okay : ∀ t, (r.st t).rFire (r.inp t) = true → (r.inp t).mem.r.bits.resp = AXIResp.OKAY
  kept : ∀ t, (r.st t).reqFire (r.inp t) = true → (r.inp t).kill = true →
    (r.st t).hit (r.inp t) = true

/-- A request hits if its block is among the contents. -/
theorem hit_eq_contents (hq : c.reqFire i = true) (hf : i.flush = false) :
    c.hit i = c.contents.hits (CacheSim.key i.req.bits.addr) := by
  have hs := c.state_of_reqFire i hq
  have hno : ¬ c.Filling := by simp [Filling, hs]
  simp only [hit, hf, readIndex, hs, if_true, Contents.hits, contents, CacheSim.key, hno,
    false_and, if_false, Bool.not_false, Bool.true_and]
  by_cases hv : c.validStorage (indexOf i.req.bits.addr) = true <;> simp [hv]

/-- During a fill the line being filled already counts. -/
theorem contents_of_filling (h : c.Filling) (k : BitVec 2) : c.contents k =
    if c.fillIndex = k then some c.fillTag
    else if c.validStorage k then some (c.tagStorage k) else none := by
  simp only [contents, h, true_and]

/-- Otherwise the contents are the valid lines. -/
theorem contents_of_not_filling (h : ¬ c.Filling) (k : BitVec 2) : c.contents k =
    if c.validStorage k then some (c.tagStorage k) else none := by
  simp only [contents, h, false_and, if_false]

/-- Outside the end of a fill the lines stay as they are. -/
theorem lines_next (hf : i.flush = false) (hd : c.fillDone i = false) :
    (c.next i).validStorage = c.validStorage ∧ (c.next i).tagStorage = c.tagStorage :=
  ⟨by simp [next, hf, hd], next_tag_of_not_fillDone hd⟩

/-- A cycle of a fill that is not the last keeps the contents. -/
theorem contents_next_of_filling (hf : i.flush = false) (hd : c.fillDone i = false)
    (hq : c.reqFire i = false) (h : c.Filling) (h' : (c.next i).Filling) :
    (c.next i).contents = c.contents := by
  obtain ⟨hv, htag⟩ := lines_next hf hd
  funext k
  rw [contents_of_filling h', contents_of_filling h, fillIndex_next hq, fillTag_next hq, hv, htag]

/-- So does a cycle without one. -/
theorem contents_next_of_not_filling (hf : i.flush = false) (hd : c.fillDone i = false)
    (h : ¬ c.Filling) (h' : ¬ (c.next i).Filling) : (c.next i).contents = c.contents := by
  obtain ⟨hv, htag⟩ := lines_next hf hd
  funext k
  rw [contents_of_not_filling h', contents_of_not_filling h, hv, htag]

/-- The end of a fill makes its line valid. -/
theorem contents_next_of_fillDone (hf : i.flush = false) (hd : c.fillDone i = true)
    (he : c.fillError i = false) : (c.next i).contents = c.contents := by
  have hs := c.state_of_fillDone i hd
  have hno : ¬ (c.next i).Filling := by
    rw [Filling, next_state_of_waitMem hs, hd]
    cases c.isKilled i <;> simp
  funext k
  rw [contents_of_not_filling hno, contents_of_filling (.inr hs), next_tag_of_fillDone hd]
  by_cases hk : c.fillIndex = k
  · have hv : (c.next i).validStorage k = true := by simp [next, hf, hd, he, hk]
    simp [hv, hk]
  · have hv : (c.next i).validStorage k = c.validStorage k := by simp [next, hf, hk]
    simp [hv, hk, Ne.symm hk]

/-- An accepted request is an access. -/
theorem contents_next_of_reqFire (hf : i.flush = false) (hq : c.reqFire i = true)
    (hkept : i.kill = true → c.hit i = true) :
    (c.next i).contents = c.contents.access (CacheSim.key i.req.bits.addr) := by
  have hs := c.state_of_reqFire i hq
  have hno : ¬ c.Filling := by simp [Filling, hs]
  have hd := fillDone_eq_false (i := i) (c := c) (by simp [hs])
  have hhit := hit_eq_contents hq hf
  have hn := next_state_of_reqFire hq
  cases hh : c.hit i with
  | true =>
      rw [Contents.access_of_hits (hhit ▸ hh)]
      refine contents_next_of_not_filling hf hd hno ?_
      rw [Filling, hn, hh]
      cases i.kill <;> cases c.respFire i <;> simp
  | false =>
      -- a miss that is not killed starts a fill
      have hk : i.kill = false := by
        by_contra hk
        rw [hkept (by simpa using hk)] at hh
        cases hh
      have hfill : (c.next i).Filling := .inl (by rw [hn, hk, hh]; rfl)
      have haddr : (c.next i).fillAddr = i.req.bits.addr := by simp [next, hq]
      obtain ⟨hv, htag⟩ := lines_next hf hd
      funext k
      rw [contents_of_filling hfill, fillIndex, fillTag, haddr, hv, htag,
        Contents.access, Function.update_apply, contents_of_not_filling hno]
      simp only [CacheSim.key, eq_comm (a := k)]

/-- **One cycle** of the cache is an access if it accepts a request, and leaves the contents
otherwise. -/
theorem contents_next (herr : c.err = false) (hf : i.flush = false)
    (hok : c.rFire i = true → i.mem.r.bits.resp = AXIResp.OKAY)
    (hkept : c.reqFire i = true → i.kill = true → c.hit i = true) :
    (c.next i).contents = if c.reqFire i then
      c.contents.access (CacheSim.key i.req.bits.addr) else c.contents := by
  cases hs : c.state with
  | idle =>
      cases hq : c.reqFire i with
      | false =>
          rw [if_neg Bool.false_ne_true]
          refine contents_next_of_not_filling hf (fillDone_eq_false (by simp [hs]))
            (by simp [Filling, hs]) ?_
          simp [Filling, next_state_of_idle hs hq]
      | true =>
          rw [if_pos rfl]
          exact contents_next_of_reqFire hf hq (hkept hq)
  | fillAddr =>
      have hq := reqFire_eq_false (i := i) (c := c) (by simp [hs])
      have hd := fillDone_eq_false (i := i) (c := c) (by simp [hs])
      rw [hq, if_neg Bool.false_ne_true]
      refine contents_next_of_filling hf hd hq (.inl hs) ?_
      rw [Filling, next_state_of_fillAddr hs]
      cases c.arFire i <;> simp
  | waitMem =>
      have hq := reqFire_eq_false (i := i) (c := c) (by simp [hs])
      rw [hq, if_neg Bool.false_ne_true]
      cases hd : c.fillDone i with
      | false =>
          refine contents_next_of_filling hf hd hq (.inr hs) (.inr ?_)
          rw [next_state_of_waitMem hs, hd]
          rfl
      | true =>
          refine contents_next_of_fillDone hf hd ?_
          rw [fillError, herr, memRespErr, hok (c.rFire_of_fillDone i hd)]
          simp
  | resp =>
      have hq := reqFire_eq_false (i := i) (c := c) (by simp [hs])
      have hd := fillDone_eq_false (i := i) (c := c) (by simp [hs])
      rw [hq, if_neg Bool.false_ne_true]
      refine contents_next_of_not_filling hf hd (by simp [Filling, hs]) ?_
      rw [Filling, next_state_of_resp hs]
      cases c.respFire i || c.isKilled i <;> simp

variable {r : (machine α).Run}

/-- In an undisturbed run no fill has an error. -/
theorem Undisturbed.err (h : Undisturbed r) (t : ℕ) : (r.st t).err = false := by
  induction t with
  | zero => exact r.start.err
  | succ t ih =>
      rw [r.step t]
      change ((r.st t).next (r.inp t)).err = false
      cases hr : (r.st t).rFire (r.inp t) with
      | false => simp [next, hr, ih]
      | true => simp [next, hr, fillError, memRespErr, ih, h.okay t hr]

/-- Along a run the cache is a direct-mapped cache. -/
theorem Undisturbed.hitList (h : Undisturbed r) (t : ℕ) :
    acceptedHits r t = DirectMapped.hitList Contents.empty
        ((acceptedAddrs r t).map CacheSim.key) ∧
      (r.st t).contents = accessAll Contents.empty ((acceptedAddrs r t).map CacheSim.key) := by
  induction t with
  | zero =>
      refine ⟨rfl, ?_⟩
      funext k
      simp [contents, Filling, r.start.state, r.start.validStorage, acceptedAddrs, accessAll,
        Contents.empty]
  | succ t ih =>
      obtain ⟨hhits, hcont⟩ := ih
      have hnext := contents_next (h.err t) (h.noFlush t) (h.okay t) (h.kept t)
      have hst : (r.st (t + 1)).contents = ((r.st t).next (r.inp t)).contents := by
        rw [r.step t]
        rfl
      rw [hst, hnext, acceptedHits, acceptedAddrs, Machine.Run.log_succ, Machine.Run.log_succ,
        ← acceptedHits, ← acceptedAddrs]
      cases hq : (r.st t).reqFire (r.inp t) with
      | false => simpa using ⟨hhits, hcont⟩
      | true =>
          rw [if_pos rfl, if_pos rfl, if_pos rfl, List.map_append, List.map_singleton,
            hitList_concat, ← hhits, ← hcont, ← hit_eq_contents hq (h.noFlush t), hcont]
          exact ⟨rfl, by rw [accessAll, accessAll, List.foldl_append]; rfl⟩

/-- **The simulator predicts the hits of the cache**, whatever its policies: the accepted
requests hit and miss as the accesses of their addresses do. -/
theorem hits_eq_cacheSim (h : Undisturbed r) (replPolicy : ReplacementPolicy)
    (writePolicy : WritePolicy) (allocPolicy : AllocationPolicy) (rng : ℕ → ℕ) (t : ℕ) :
    acceptedHits r t = (CacheSim.new 64 16 1 replPolicy writePolicy allocPolicy rng).readHitList
      (acceptedAddrs r t) := by
  rw [CacheSim.readHitList_new]
  exact (h.hitList t).1

/-- A run beside a memory that answers with OKAY. -/
theorem undisturbed_driven {stim : ℕ → Stimulus} (hf : ∀ t, (stim t).flush = false)
    (hr : ∀ t, (stim t).resp = AXIResp.OKAY) (hk : ∀ t, (stim t).kill = false) :
    Undisturbed (driven stim) where
  noFlush t := by rw [driven_env, Stimulus.input, hf]
  okay t _ := by
    rw [driven_env, Stimulus.input, hr]
    unfold answer
    cases burst (driven stim) t <;> rfl
  kept t _ h := by
    rw [driven_env, Stimulus.input, hk] at h
    cases h

/-- Two words of one block, and a word of another block for the same line, each requested
whenever the cache is idle. -/
def threeWords (t : ℕ) : Stimulus :=
  { addr := some (if t ≤ 6 then 0x30000000 else if t ≤ 7 then 0x30000004 else 0x30000040) }

/-- Three words of two lines, fetched one after the other. -/
theorem threeWords_hits :
    acceptedAddrs (driven threeWords) 10 = [0x30000000, 0x30000004, 0x30000040] ∧
    acceptedHits (driven threeWords) 10 =
      (CacheSim.new 64 16 1 .RANDOM .WRITE_BACK .WRITE_ALLOCATE fun _ => 5).readHitList
        (acceptedAddrs (driven threeWords) 10) :=
  ⟨by decide, hits_eq_cacheSim (undisturbed_driven (fun _ => rfl) (fun _ => rfl) (fun _ => rfl))
    .RANDOM .WRITE_BACK .WRITE_ALLOCATE (fun _ => 5) 10⟩

/-- A request that is killed as it is accepted, and the same request again. -/
def killedRequest (t : ℕ) : Stimulus := { addr := some 0x30000000, kill := decide (t = 0) }

/-- Without a fill the second request misses, too. -/
theorem killedRequest_not_predicted : ¬ ∀ r : (machine Unit).Run,
    (∀ t, (r.inp t).flush = false) →
    (∀ t, (r.st t).rFire (r.inp t) = true → (r.inp t).mem.r.bits.resp = AXIResp.OKAY) →
    ∀ t, acceptedHits r t =
      (CacheSim.new 64 16 1 .LRU .WRITE_BACK .WRITE_ALLOCATE fun _ => 0).readHitList
        (acceptedAddrs r t) := by
  intro h
  have hrun := h (driven killedRequest) (fun t => ?_) (fun t _ => ?_) 2
  · exact absurd hrun (by decide)
  · rw [driven_env, Stimulus.input]
    rfl
  · rw [driven_env, Stimulus.input]
    unfold answer
    cases burst (driven killedRequest) t <;> rfl

end ICache

/-- The fetch unit requests nothing while it kills. -/
theorem IFU.not_killed_of_reqFire {f : IFU} {i : IFUIn} (h : f.reqFire i = true) :
    (f.icacheIn i).kill = false := by
  have hv : (!i.redirectValid) = true := (Bool.and_eq_true_iff.mp h).1
  simpa [icacheIn] using hv

end Bailuwan
