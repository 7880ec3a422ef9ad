/-
# Replacement (`CacheSim::access`)

The timestamps order the lines of a set by the accesses that counted for them (`Ordered`),
and the victim is the last line of that order.  So the blocks of a set are the most recent
ones of the log of these accesses (`Tracks.accesses`), and the facts about recency apply:
when an access hits under LRU, and that more ways keep every hit.
-/
import Bailuwan.CacheRun
import Bailuwan.Recency

namespace Bailuwan

open DirectMapped Recency

namespace CacheSim

/-- The accesses that count: the misses that allocate, and for LRU the hits. -/
def counted (s : CacheSim) (a : Access) : Bool :=
  if s.hit a.1 then decide (s.replacementPolicy = .LRU)
  else decide (¬ (a.2 = .WRITE ∧ s.allocPolicy = .NO_WRITE_ALLOCATE))

/-- A hit is counted where the order is that of use. -/
theorem counted_of_hit {s : CacheSim} {a : Access} (h : s.hit a.1 = true) :
    s.counted a = decide (s.replacementPolicy = .LRU) := if_pos h

/-- A miss is counted where it allocates. -/
theorem counted_of_miss {s : CacheSim} {a : Access} (h : s.hit a.1 = false) :
    s.counted a = decide (¬ (a.2 = .WRITE ∧ s.allocPolicy = .NO_WRITE_ALLOCATE)) :=
  if_neg (by rw [h]; exact Bool.false_ne_true)

/-- The tags of the accesses of a set that count, in the order of the trace. -/
def recencyLog (c : Config) (i : ℕ) (s : CacheSim) (l : List Access) : List Word :=
  (outputs (fun s a => if c.set a.1 = i ∧ s.counted a then [c.tag a.1] else [])
    (fun s a => s.access a.1 a.2) s l).flatten

/-- The block was accessed, and fewer than `k` other blocks of its set since. -/
def ReusedWithin (c : Config) (k : ℕ) (addr : Word) (l : List Access) : Prop :=
  ∃ pre a post, l = pre ++ a :: post ∧ c.block a.1 = c.block addr ∧
    (∀ b ∈ post, c.block b.1 ≠ c.block addr) ∧
    ((post.filter fun b => c.set b.1 = c.set addr).map fun b => c.block b.1).toFinset.card < k

/-- The same cache but for its number of ways. -/
structure Config.MoreWays (c c' : Config) : Prop where
  blockSize : c'.blockSize = c.blockSize
  numSets : c'.numSets = c.numSets
  setSize : c.setSize.toNat ≤ c'.setSize.toNat
  replacementPolicy : c'.replacementPolicy = c.replacementPolicy
  writePolicy : c'.writePolicy = c.writePolicy
  allocPolicy : c'.allocPolicy = c.allocPolicy

/-- **The simulator implements its policy**: after a trace every set holds a block at most once,
and the most recent ones of its log; and what follows for LRU. -/
structure Replaces (c : Config) (rng : ℕ → ℕ) (l : List Access) : Prop where
  once : ∀ i, (validTags (((c.start rng).accesses l).sets i)).Nodup
  recent : ∀ i t, t ∈ validTags (((c.start rng).accesses l).sets i) ↔
    t ∈ recent c.setSize.toNat (recencyLog c i.toNat (c.start rng) l)
  reuse : c.replacementPolicy = .LRU → c.allocPolicy = .WRITE_ALLOCATE → ∀ addr,
    ((c.start rng).accesses l).hit addr = true ↔ ReusedWithin c c.setSize.toNat addr l
  ways : c.replacementPolicy = .LRU → ∀ c', c'.Regular → c.MoreWays c' → ∀ rng' addr,
    ((c.start rng).accesses l).hit addr = true → ((c'.start rng').accesses l).hit addr = true

/-! ### The order of the lines -/

/-- The lines in use, the latest timestamp first, have the tags `l`; no timestamp is after
`now`. -/
def Ordered (lines : List CacheLine) (l : List Word) (now : ℕ) : Prop :=
  ∃ ls : List CacheLine, ls.Perm (lines.filter fun line => line.valid) ∧
    (ls.map fun line => line.tag) = l ∧
    (ls.map fun line => line.timestamp.toNat).Pairwise (· > ·) ∧
    ∀ n ∈ ls.map fun line => line.timestamp.toNat, n ≤ now

variable {lines A B ls : List CacheLine} {x y : CacheLine} {l : List Word} {now now' : ℕ}

/-- The order consists of the valid tags. -/
theorem Ordered.perm (h : Ordered lines l now) : (validTags lines).Perm l := by
  obtain ⟨ls, hperm, rfl, -, -⟩ := h
  exact (hperm.map _).symm

/-- The order is one at a later time too. -/
theorem Ordered.mono (h : Ordered lines l now) (hle : now ≤ now') : Ordered lines l now' := by
  obtain ⟨ls, hperm, htags, hsorted, hbound⟩ := h
  exact ⟨ls, hperm, htags, hsorted, fun n hn => (hbound n hn).trans hle⟩

theorem Ordered.mem_iff (h : Ordered lines l now) (t : Word) : t ∈ validTags lines ↔ t ∈ l :=
  h.perm.mem_iff

/-- The order has as many tags as there are valid lines. -/
theorem Ordered.length_eq (h : Ordered lines l now) :
    l.length = (lines.filter fun line => line.valid).length := by
  rw [← h.perm.length_eq, validTags, List.length_map]

/-- The order has no more tags than there are lines. -/
theorem Ordered.length_le (h : Ordered lines l now) : l.length ≤ lines.length := by
  rw [h.length_eq]
  exact List.length_filter_le ..

/-- A valid line is among the valid ones. -/
theorem filter_valid (hx : x.valid = true) : ((A ++ x :: B).filter fun line => line.valid).Perm
    (x :: (A ++ B).filter fun line => line.valid) := by
  rw [List.filter_append, List.filter_cons_of_pos hx, List.filter_append]
  exact List.perm_middle

/-- A line that is not valid is left out. -/
theorem filter_invalid (hx : x.valid = false) :
    ((A ++ x :: B).filter fun line => line.valid) = (A ++ B).filter fun line => line.valid := by
  rw [List.filter_append, List.filter_cons_of_neg (by simp [hx]), List.filter_append]

/-- Where a line in use stands in the order. -/
theorem split_of_valid (hperm : ls.Perm ((A ++ x :: B).filter fun line => line.valid))
    (hx : x.valid = true) : ∃ P Q, ls = P ++ x :: Q ∧
      (P ++ Q).Perm ((A ++ B).filter fun line => line.valid) := by
  have hcons := hperm.trans (filter_valid hx)
  obtain ⟨P, Q, rfl⟩ := List.append_of_mem (hcons.mem_iff.mpr List.mem_cons_self)
  exact ⟨P, Q, rfl, (List.perm_middle.symm.trans hcons).cons_inv⟩

/-- A line changes, but neither its block nor its timestamp. -/
theorem Ordered.keep (h : Ordered (A ++ x :: B) l now) (hx : x.valid = true)
    (hy : y.valid = true) (htag : y.tag = x.tag) (htime : y.timestamp = x.timestamp) :
    Ordered (A ++ y :: B) l now := by
  obtain ⟨ls, hperm, rfl, hsorted, hbound⟩ := h
  obtain ⟨P, Q, rfl, hPQ⟩ := split_of_valid hperm hx
  have htimes : ((P ++ y :: Q).map fun line => line.timestamp.toNat) =
      (P ++ x :: Q).map fun line => line.timestamp.toNat := by
    simp [htime]
  refine ⟨P ++ y :: Q, ?_, by simp [htag], htimes ▸ hsorted, htimes ▸ hbound⟩
  exact List.perm_middle.trans ((hPQ.cons y).trans (filter_valid hy).symm)

/-- Some of the lines in use, and a line that is later than all of them. -/
theorem Ordered.cons_of_sublist {ls' : List CacheLine}
    (hperm : ls'.Perm ((A ++ B).filter fun line => line.valid)) (hsub : ls'.Sublist ls)
    (hsorted : (ls.map fun line => line.timestamp.toNat).Pairwise (· > ·))
    (hbound : ∀ n ∈ ls.map fun line => line.timestamp.toNat, n ≤ now) (hy : y.valid = true)
    (htime : y.timestamp.toNat = now') (hnow : now < now') :
    Ordered (A ++ y :: B) (y.tag :: ls'.map fun line => line.tag) now' := by
  have htimes := hsub.map fun line => line.timestamp.toNat
  refine ⟨y :: ls', (hperm.cons y).trans (filter_valid hy).symm, rfl, ?_, ?_⟩
  · rw [List.map_cons, List.pairwise_cons]
    refine ⟨fun n hn => ?_, hsorted.sublist htimes⟩
    have := hbound n (htimes.subset hn)
    omega
  · intro n hn
    rw [List.map_cons, List.mem_cons, htime] at hn
    rcases hn with rfl | hn
    · exact le_rfl
    · exact (hbound n (htimes.subset hn)).trans hnow.le

/-- A line comes to the front. -/
theorem Ordered.front (h : Ordered (A ++ x :: B) l now) (hl : l.Nodup) (hx : x.valid = true)
    (hy : y.valid = true) (htag : y.tag = x.tag) (htime : y.timestamp.toNat = now')
    (hnow : now < now') : Ordered (A ++ y :: B) (x.tag :: l.erase x.tag) now' := by
  obtain ⟨ls, hperm, rfl, hsorted, hbound⟩ := h
  obtain ⟨P, Q, rfl, hPQ⟩ := split_of_valid hperm hx
  have herase : (((P ++ x :: Q).map fun line => line.tag).erase x.tag) =
      (P ++ Q).map fun line => line.tag := by
    rw [List.map_append, List.map_cons] at hl ⊢
    have hnot : x.tag ∉ P.map fun line => line.tag := by
      intro hmem
      exact (List.nodup_append.mp hl).2.2 _ hmem _ List.mem_cons_self rfl
    rw [List.erase_append_right _ hnot, List.erase_cons_head, List.map_append]
  rw [herase, ← htag]
  exact Ordered.cons_of_sublist hPQ
    ((List.Sublist.refl P).append (List.sublist_cons_self x Q)) hsorted hbound hy htime hnow

/-- An empty line is filled. -/
theorem Ordered.fill (h : Ordered (A ++ x :: B) l now) (hx : x.valid = false)
    (hy : y.valid = true) (htime : y.timestamp.toNat = now') (hnow : now < now') :
    Ordered (A ++ y :: B) (y.tag :: l) now' := by
  obtain ⟨ls, hperm, rfl, hsorted, hbound⟩ := h
  rw [filter_invalid hx] at hperm
  exact Ordered.cons_of_sublist hperm (.refl ls) hsorted hbound hy htime hnow

/-- The oldest line is the last one, and is replaced. -/
theorem Ordered.evict (h : Ordered (A ++ x :: B) l now) (hx : x.valid = true)
    (hold : ∀ z ∈ A ++ x :: B, x.timestamp.toNat ≤ z.timestamp.toNat) (hy : y.valid = true)
    (htime : y.timestamp.toNat = now') (hnow : now < now') :
    Ordered (A ++ y :: B) (y.tag :: l.dropLast) now' := by
  obtain ⟨ls, hperm, rfl, hsorted, hbound⟩ := h
  obtain ⟨P, Q, rfl, hPQ⟩ := split_of_valid hperm hx
  have hQ : Q = [] := by
    rw [List.eq_nil_iff_forall_not_mem]
    intro z hz
    have hmem := (List.mem_filter.mp (hperm.mem_iff.mp
      (List.mem_append_right P (List.mem_cons_of_mem x hz)))).1
    rw [List.map_append, List.map_cons, List.pairwise_append, List.pairwise_cons] at hsorted
    exact absurd (hsorted.2.1.1 _ (List.mem_map_of_mem hz)) (Nat.not_lt.mpr (hold z hmem))
  subst hQ
  rw [List.map_append, List.map_singleton, List.dropLast_concat]
  rw [List.append_nil] at hPQ
  exact Ordered.cons_of_sublist hPQ (List.sublist_append_left P [x]) hsorted hbound hy htime hnow

/-! ### One access -/

/-- The simulator after `n` accesses, its sets in the given orders. -/
structure Tracks (c : Config) (s : CacheSim) (orders : Word → List Word) (n : ℕ) : Prop where
  fits : Fits c s
  clock : s.clock.toNat = n
  ordered : ∀ i, Ordered (s.sets i) (orders i) n
  nodup : ∀ i, (orders i).Nodup

variable {c c' : Config} {s s' : CacheSim} {orders orders' : Word → List Word} {n : ℕ}
  {a : Access} {trace : List Access}

/-- At the start nothing is in the cache. -/
theorem tracks_start (c : Config) (rng : ℕ → ℕ) : Tracks c (c.start rng) (fun _ => []) 0 where
  fits := fits_start c rng
  clock := rfl
  ordered _ := by
    refine ⟨[], ?_, rfl, List.Pairwise.nil, by simp⟩
    rw [List.filter_eq_nil_iff.mpr]
    intro line hline
    rw [List.eq_of_mem_replicate hline]
    decide
  nodup _ := List.nodup_nil

/-- A hit is a tag of the order. -/
theorem Tracks.hit_iff (h : Tracks c s orders n) (addr : Word) :
    s.hit addr = true ↔ s.tag addr ∈ orders (s.index addr) :=
  CacheSim.hit_iff.trans ((h.ordered _).mem_iff _)

/-- A set has no more lines than ways. -/
theorem Tracks.length_le (h : Tracks c s orders n) (i : Word) :
    (orders i).length ≤ c.setSize.toNat := by
  rw [← h.fits.length i]
  exact (h.ordered i).length_le

/-- The clock after a tick. -/
theorem Tracks.tick_clock (h : Tracks c s orders n) (hn : n + 1 < 2 ^ 64) :
    s.tick.clock.toNat = n + 1 := by
  change (s.clock + 1).toNat = _
  rw [BitVec.toNat_add, h.clock]
  exact Nat.mod_eq_of_lt hn

/-- Every access advances the clock by one tick. -/
theorem clock_access (s : CacheSim) (a : Access) :
    (s.access a.1 a.2).clock = s.tick.clock := by
  cases hhit : s.hit a.1 with
  | false =>
      rw [access_of_miss _ hhit, onMiss]
      split_ifs <;> rfl
  | true =>
      obtain ⟨_, _, _, _, -, -, -, haccess, -⟩ := access_of_hit a.2 hhit
      rw [haccess]
      rfl

/-- One set gets a new order. -/
theorem Tracks.update (h : Tracks c s orders n) (hn : n + 1 < 2 ^ 64) {lines : List CacheLine}
    {l : List Word}
    (hsets : (s.access a.1 a.2).sets = Function.update s.sets (s.index a.1) lines)
    (hl : Ordered lines l (n + 1)) (hnodup : l.Nodup) :
    Tracks c (s.access a.1 a.2) (Function.update orders (s.index a.1) l) (n + 1) where
  fits := h.fits.access
  clock := by rw [clock_access, h.tick_clock hn]
  ordered i := by
    rw [hsets]
    by_cases hi : i = s.index a.1
    · subst hi
      rw [Function.update_self, Function.update_self]
      exact hl
    · rw [Function.update_of_ne hi, Function.update_of_ne hi]
      exact (h.ordered i).mono n.le_succ
  nodup i := by
    by_cases hi : i = s.index a.1
    · subst hi
      rwa [Function.update_self]
    · rw [Function.update_of_ne hi]
      exact h.nodup i

/-- What an access does to the order of its set. -/
def orderAfter (c : Config) (s : CacheSim) (a : Access) (l : List Word) : List Word :=
  if s.counted a then promote c.setSize.toNat l (s.tag a.1) else l

/-- A hit moves its tag as the policy says. -/
theorem Tracks.hit (h : Tracks c s orders n) (hn : n + 1 < 2 ^ 64) (hhit : s.hit a.1 = true) :
    Tracks c (s.access a.1 a.2) (Function.update orders (s.index a.1)
      (orderAfter c s a (orders (s.index a.1)))) (n + 1) := by
  obtain ⟨_, A, x, B, hlines, hvalid, htag, -, hsets⟩ := access_of_hit a.2 hhit
  have hord := h.ordered (s.index a.1)
  have hmem := (h.hit_iff a.1).mp hhit
  have hclock := h.tick_clock hn
  rw [show s.sets (s.index a.1) = A ++ x :: B from hlines] at hord
  by_cases hlru : s.replacementPolicy = .LRU
  · have hcounted : s.counted a = true := by rw [counted_of_hit hhit, decide_eq_true hlru]
    have htouch : s.tick.touch a.2 x =
        { x with
          dirty := if a.2 = .WRITE ∧ s.writePolicy = .WRITE_BACK then true else x.dirty
          timestamp := s.tick.clock } := by
      rw [CacheSim.touch, show s.tick.replacementPolicy = .LRU from hlru, if_pos rfl]
      rfl
    rw [orderAfter, if_pos hcounted, promote_of_mem hmem (h.length_le _), ← htag]
    refine h.update hn hsets (hord.front (h.nodup _) hvalid ?_ ?_ ?_ n.lt_succ_self) ?_
    · rw [htouch]
      exact hvalid
    · rw [htouch]
    · rw [htouch]
      exact hclock
    · exact nodup_cons_erase (h.nodup _)
  · have hcounted : ¬ s.counted a = true := by
      rw [counted_of_hit hhit, decide_eq_true_iff]
      exact hlru
    rw [orderAfter, if_neg hcounted]
    have htime : (s.tick.touch a.2 x).timestamp = x.timestamp := if_neg hlru
    have hkeep := hord.keep (y := s.tick.touch a.2 x) hvalid hvalid rfl htime
    exact h.update hn hsets (hkeep.mono n.le_succ) (h.nodup _)

/-- A miss that allocates puts its tag in front. -/
theorem Tracks.allocate (h : Tracks c s orders n) (hr : c.Regular)
    (hp : c.replacementPolicy ≠ .RANDOM) (hn : n + 1 < 2 ^ 64) (hmiss : s.hit a.1 = false)
    (halloc : ¬ (a.2 = .WRITE ∧ s.allocPolicy = .NO_WRITE_ALLOCATE)) :
    Tracks c (s.access a.1 a.2) (Function.update orders (s.index a.1)
      (orderAfter c s a (orders (s.index a.1)))) (n + 1) := by
  obtain ⟨A, x, B, hlines, hx, hsets, -⟩ := h.fits.access_of_allocate hr hmiss halloc
  have hord := h.ordered (s.index a.1)
  have hlen := h.fits.length (s.index a.1)
  have hmem : s.tag a.1 ∉ orders (s.index a.1) := by
    rw [← h.hit_iff a.1, hmiss]
    exact Bool.false_ne_true
  have hclock := h.tick_clock hn
  have hcounted : s.counted a = true := by
    rw [counted_of_miss hmiss, decide_eq_true halloc]
  have hnodup := nodup_promote (k := c.setSize.toNat) (t := s.tag a.1) (h.nodup (s.index a.1))
  rw [show s.sets (s.index a.1) = A ++ x :: B from hlines] at hord hlen
  rw [orderAfter, if_pos hcounted]
  refine h.update hn hsets ?_ hnodup
  cases hvalid : x.valid with
  | false =>
      have hlt : (orders (s.index a.1)).length < c.setSize.toNat := by
        rw [hord.length_eq, filter_invalid hvalid, ← hlen, List.length_append, List.length_cons]
        have := List.length_filter_le (fun line => line.valid) (A ++ B)
        rw [List.length_append] at this
        omega
      rw [promote_of_lt hmem hlt]
      exact hord.fill hvalid rfl hclock n.lt_succ_self
  | true =>
      obtain ⟨hall, hold⟩ := hx hvalid
      rw [hlines] at hall hold
      have hfull : (orders (s.index a.1)).length = c.setSize.toNat := by
        rw [hord.length_eq, List.filter_eq_self.mpr hall, hlen]
      rw [promote_of_full hmem hfull hr.setSize_pos]
      exact hord.evict hvalid (hold (by rwa [h.fits.replacementPolicy])) rfl hclock
        n.lt_succ_self

/-- **An access** puts its block to the front of the order of its set if it counts. -/
theorem Tracks.access (h : Tracks c s orders n) (hr : c.Regular)
    (hp : c.replacementPolicy ≠ .RANDOM) (hn : n + 1 < 2 ^ 64) :
    Tracks c (s.access a.1 a.2) (Function.update orders (s.index a.1)
      (orderAfter c s a (orders (s.index a.1)))) (n + 1) := by
  cases hhit : s.hit a.1 with
  | true => exact h.hit hn hhit
  | false =>
      by_cases halloc : a.2 = .WRITE ∧ s.allocPolicy = .NO_WRITE_ALLOCATE
      · have hcounted : ¬ s.counted a = true := by
          rw [counted_of_miss hhit, decide_eq_true_iff]
          exact not_not.mpr halloc
        have hsets : (s.access a.1 a.2).sets =
            Function.update s.sets (s.index a.1) (s.sets (s.index a.1)) := by
          rw [Function.update_eq_self]
          exact (access_of_noAllocate hhit halloc).2
        rw [orderAfter, if_neg hcounted]
        exact h.update hn hsets ((h.ordered _).mono n.le_succ) (h.nodup _)
      · exact h.allocate hr hp hn hhit halloc

/-! ### Traces -/

/-- The log of a set after another access. -/
theorem recencyLog_concat (i : ℕ) : recencyLog c i s (trace ++ [a]) = recencyLog c i s trace ++
    if c.set a.1 = i ∧ (s.accesses trace).counted a then [c.tag a.1] else [] := by
  rw [recencyLog, outputs_concat, List.flatten_append, List.flatten_singleton]
  rfl

/-- Addresses of a set share its index. -/
theorem Fits.index_eq_iff (h : Fits c s) (hr : c.Regular) (addr i : Word) :
    i = s.index addr ↔ c.set addr = i.toNat := by
  rw [← h.index_eq hr, BitVec.toNat_inj, eq_comm]

/-- **The sets hold the most recent blocks of their logs.** -/
theorem Tracks.accesses (hr : c.Regular) (hp : c.replacementPolicy ≠ .RANDOM) (rng : ℕ → ℕ)
    (hl : trace.length < 2 ^ 64) : Tracks c ((c.start rng).accesses trace)
      (fun i => recent c.setSize.toNat (recencyLog c i.toNat (c.start rng) trace))
      trace.length := by
  induction trace using List.reverseRecOn with
  | nil =>
      have hnil : (fun i : Word => recent c.setSize.toNat
          (recencyLog c i.toNat (c.start rng) [])) = fun _ => [] := by
        funext i
        exact recent_nil
      rw [hnil]
      exact tracks_start c rng
  | append_singleton trace a ih =>
      rw [List.length_append, List.length_singleton] at hl ⊢
      have h := ih (by omega)
      rw [accesses_concat]
      convert h.access (a := a) hr hp hl using 1
      funext i
      rw [recencyLog_concat]
      by_cases hi : i = ((c.start rng).accesses trace).index a.1
      · have hset := (h.fits.index_eq_iff hr a.1 i).mp hi
        rw [hi, Function.update_self, ← hi, orderAfter, h.fits.tag_eq hr]
        by_cases hcounted : ((c.start rng).accesses trace).counted a = true
        · rw [if_pos ⟨hset, hcounted⟩, if_pos hcounted, recent_concat]
        · rw [if_neg fun hand => hcounted hand.2, if_neg hcounted, List.append_nil]
      · have hset : ¬ c.set a.1 = i.toNat := by rwa [← h.fits.index_eq_iff hr]
        rw [Function.update_of_ne hi, if_neg fun hand => hset hand.1, List.append_nil]

/-- Under LRU with write-allocate all accesses count. -/
theorem recencyLog_eq (h : Fits c s) (hp : c.replacementPolicy = .LRU)
    (halloc : c.allocPolicy = .WRITE_ALLOCATE) (i : ℕ) (trace : List Access) :
    recencyLog c i s trace =
      (trace.filter fun a => c.set a.1 = i).map fun a => c.tag a.1 := by
  induction trace using List.reverseRecOn with
  | nil => rfl
  | append_singleton trace a ih =>
      have hfits := h.accesses trace
      have hcounted : (s.accesses trace).counted a = true := by
        rw [counted, hfits.replacementPolicy, hfits.allocPolicy, hp, halloc]
        cases (s.accesses trace).hit a.1 <;> simp
      rw [recencyLog_concat, ih, List.filter_append, List.map_append, hcounted]
      by_cases hset : c.set a.1 = i <;> simp [hset]

/-- In one set there are as many tags as blocks. -/
theorem card_tags (c : Config) (addr : Word) (trace : List Access) :
    ((trace.filter fun a => c.set a.1 = c.set addr).map fun a => c.tag a.1).toFinset.card =
      ((trace.filter fun a => c.set a.1 = c.set addr).map fun a => c.block a.1).toFinset.card := by
  refine card_map_eq fun a ha b hb => ?_
  have hset : c.set a.1 = c.set b.1 :=
    (of_decide_eq_true (List.mem_filter.mp ha).2).trans
      (of_decide_eq_true (List.mem_filter.mp hb).2).symm
  rw [c.block_eq_iff, and_iff_right hset]

/-- **When an access hits** under LRU with write-allocate. -/
theorem hit_iff_reusedWithin (hr : c.Regular) (hp : c.replacementPolicy = .LRU)
    (halloc : c.allocPolicy = .WRITE_ALLOCATE) (rng : ℕ → ℕ) (hl : trace.length < 2 ^ 64)
    (addr : Word) : ((c.start rng).accesses trace).hit addr = true ↔
      ReusedWithin c c.setSize.toNat addr trace := by
  have hfits := (fits_start c rng).accesses trace
  rw [(Tracks.accesses hr (by rw [hp]; decide) rng hl).hit_iff, hfits.tag_eq hr,
    hfits.index_eq hr, recencyLog_eq (fits_start c rng) hp halloc]
  -- the log, divided at an access to the block
  have hsplit : ∀ pre a post, trace = pre ++ a :: post → c.block a.1 = c.block addr →
      (∀ b ∈ post, c.block b.1 ≠ c.block addr) →
      (c.tag addr ∈ recent c.setSize.toNat
          ((trace.filter fun a => c.set a.1 = c.set addr).map fun a => c.tag a.1) ↔
        ((post.filter fun b => c.set b.1 = c.set addr).map fun b => c.block b.1).toFinset.card <
          c.setSize.toNat) := by
    rintro pre a post rfl ha hpost
    obtain ⟨hset, htag⟩ := (c.block_eq_iff _ _).mp ha
    have hnot : c.tag addr ∉
        (post.filter fun b => c.set b.1 = c.set addr).map fun b => c.tag b.1 := by
      intro hmem
      obtain ⟨b, hb, heq⟩ := List.mem_map.mp hmem
      obtain ⟨hb, hbset⟩ := List.mem_filter.mp hb
      exact hpost b hb ((c.block_eq_iff _ _).mpr ⟨of_decide_eq_true hbset, heq⟩)
    have hcons : ((a :: post).filter fun b => c.set b.1 = c.set addr) =
        a :: post.filter fun b => c.set b.1 = c.set addr :=
      List.filter_cons_of_pos (decide_eq_true hset)
    rw [List.filter_append, hcons, List.map_append, List.map_cons, htag,
      mem_recent_append_iff _ hnot, card_tags]
  constructor
  · intro h
    obtain ⟨a, ha, htag⟩ := List.mem_map.mp (mem_of_mem_recent h)
    obtain ⟨ha, hset⟩ := List.mem_filter.mp ha
    have hblock := (c.block_eq_iff a.1 addr).mpr ⟨of_decide_eq_true hset, htag⟩
    obtain ⟨pre, b, post, htrace, hb, hpost⟩ :=
      exists_last_use (p := fun b : Access => c.block b.1 = c.block addr) ⟨a, ha, hblock⟩
    exact ⟨pre, b, post, htrace, hb, hpost, (hsplit pre b post htrace hb hpost).mp h⟩
  · rintro ⟨pre, a, post, htrace, ha, hpost, hcard⟩
    exact (hsplit pre a post htrace ha hpost).mpr hcard

/-! ### More ways -/

/-- More ways do not change set and tag. -/
theorem Config.MoreWays.address (h : c.MoreWays c') (addr : Word) :
    c'.set addr = c.set addr ∧ c'.tag addr = c.tag addr := by
  rw [Config.set, Config.tag, Config.block, h.blockSize, h.numSets]
  exact ⟨rfl, rfl⟩

/-- Two caches whose sets are in such orders that the one with more ways holds more. -/
structure Included (c c' : Config) (s s' : CacheSim) (n : ℕ) : Prop where
  orders : ∃ orders orders', Tracks c s orders n ∧ Tracks c' s' orders' n ∧
    ∀ i, Within c.setSize.toNat (orders i) (orders' i)

/-- What an access does to the orders of its set in both caches, when it hits where its block
is. -/
theorem within_orderAfter {orders orders' : List Word}
    (hset : Within c.setSize.toNat orders orders')
    (hboth : Within c.setSize.toNat (promote c.setSize.toNat orders (s.tag a.1))
      (promote c'.setSize.toNat orders' (s'.tag a.1)))
    (htag : s'.tag a.1 = s.tag a.1) (hlen : orders'.length ≤ c'.setSize.toNat)
    (hhit : s.hit a.1 = true ↔ s.tag a.1 ∈ orders)
    (hhit' : s'.hit a.1 = true ↔ s'.tag a.1 ∈ orders') (hlru : s.replacementPolicy = .LRU)
    (hlru' : s'.replacementPolicy = .LRU) (halloc : s'.allocPolicy = s.allocPolicy) :
    Within c.setSize.toNat (orderAfter c s a orders) (orderAfter c' s' a orders') := by
  rw [htag] at hhit' hboth
  rw [orderAfter, orderAfter, htag]
  by_cases hmem : s.tag a.1 ∈ orders
  · -- a hit in both
    have hmem' := hset.sublist.subset hmem
    rw [counted_of_hit (hhit.mpr hmem), counted_of_hit (hhit'.mpr hmem'), hlru, hlru']
    exact hboth
  · have hmiss : s.hit a.1 = false := by rwa [Bool.eq_false_iff, ne_eq, hhit]
    by_cases hmem' : s.tag a.1 ∈ orders'
    · -- the larger cache hits, and the other one may not allocate
      rw [counted_of_miss hmiss, counted_of_hit (hhit'.mpr hmem'), hlru']
      by_cases hno : a.2 = .WRITE ∧ s.allocPolicy = .NO_WRITE_ALLOCATE
      · simpa [hno] using hset.promote_right hlen hmem hmem'
      · simpa [hno] using hboth
    · have hmiss' : s'.hit a.1 = false := by rwa [Bool.eq_false_iff, ne_eq, hhit']
      rw [counted_of_miss hmiss, counted_of_miss hmiss', halloc]
      split_ifs
      · exact hboth
      · exact hset

/-- **An access keeps the inclusion.** -/
theorem Included.access (h : Included c c' s s' n) (hr : c.Regular) (hr' : c'.Regular)
    (hp : c.replacementPolicy = .LRU) (hways : c.MoreWays c') (hn : n + 1 < 2 ^ 64) :
    Included c c' (s.access a.1 a.2) (s'.access a.1 a.2) (n + 1) := by
  obtain ⟨orders, orders', ht, ht', hin⟩ := h.orders
  have hp' : c'.replacementPolicy = .LRU := hways.replacementPolicy.trans hp
  obtain ⟨hset, htag⟩ := hways.address a.1
  have hindex := ht.fits.index_congr hr ht'.fits hr' hset
  have htags := ht.fits.tag_congr hr ht'.fits hr' htag
  have hstep := ht.access (a := a) hr (by rw [hp]; decide) hn
  have hstep' := ht'.access (a := a) hr' (by rw [hp']; decide) hn
  refine ⟨_, _, hstep, hstep', fun i => ?_⟩
  rw [hindex]
  by_cases hi : i = s.index a.1
  · subst hi
    have hset := hin (s.index a.1)
    have hhit' := ht'.hit_iff a.1
    have hboth := hset.promote (t := s.tag a.1) hways.setSize (ht.length_le _)
      (ht'.length_le _) hr.setSize_pos
    rw [hindex] at hhit'
    rw [Function.update_self, Function.update_self]
    refine within_orderAfter hset (by rwa [htags]) htags (ht'.length_le _) (ht.hit_iff a.1) hhit'
      (ht.fits.replacementPolicy.trans hp) (ht'.fits.replacementPolicy.trans hp') ?_
    rw [ht'.fits.allocPolicy, ht.fits.allocPolicy, hways.allocPolicy]
  · rw [Function.update_of_ne hi, Function.update_of_ne hi]
    exact hin i

/-- With more ways the cache has all that it had with fewer. -/
theorem included_accesses (hr : c.Regular) (hr' : c'.Regular) (hp : c.replacementPolicy = .LRU)
    (hways : c.MoreWays c') (rng rng' : ℕ → ℕ) (hl : trace.length < 2 ^ 64) :
    Included c c' ((c.start rng).accesses trace) ((c'.start rng').accesses trace)
      trace.length := by
  induction trace using List.reverseRecOn with
  | nil =>
      exact ⟨_, _, tracks_start c rng, tracks_start c' rng', fun _ => ⟨.refl _, fun _ => rfl⟩⟩
  | append_singleton trace a ih =>
      rw [List.length_append, List.length_singleton] at hl ⊢
      rw [accesses_concat, accesses_concat]
      exact (ih (by omega)).access hr hr' hp hways hl

/-- What hits with fewer ways hits with more. -/
theorem Included.hit (h : Included c c' s s' n) (hr : c.Regular) (hr' : c'.Regular)
    (hways : c.MoreWays c') {addr : Word} (hhit : s.hit addr = true) : s'.hit addr = true := by
  obtain ⟨orders, orders', ht, ht', hin⟩ := h.orders
  obtain ⟨hset, htag⟩ := hways.address addr
  rw [ht'.hit_iff, ht.fits.index_congr hr ht'.fits hr' hset,
    ht.fits.tag_congr hr ht'.fits hr' htag]
  exact (hin _).sublist.subset ((ht.hit_iff addr).mp hhit)

/-- **The simulator implements LRU and FIFO.** -/
theorem replaces (c : Config) (hr : c.Regular) (hp : c.replacementPolicy ≠ .RANDOM)
    (rng : ℕ → ℕ) (l : List Access) (hl : l.length < 2 ^ 64) : Replaces c rng l where
  once i := by
    have h := Tracks.accesses hr hp rng hl
    exact (h.ordered i).perm.nodup_iff.mpr (h.nodup i)
  recent i t := ((Tracks.accesses hr hp rng hl).ordered i).mem_iff t
  reuse hlru halloc addr := hit_iff_reusedWithin hr hlru halloc rng hl addr
  ways hlru c' hr' hways rng' addr hhit :=
    (included_accesses hr hr' hlru hways rng rng' hl).hit hr hr' hways hhit

/-- Three accesses that have two ways. -/
theorem replaces_three : Replaces (twoWays .LRU) (fun _ => 0) threeAccesses :=
  replaces _ (twoWays_regular .LRU) (by decide) _ _ (by decide)

end CacheSim

end Bailuwan
