/-
# The allocator (`klib/src/stdlib.c`)

`malloc` moves a base through the heap area and never takes a block back.  It rounds sizes and
adds them to the base in the arithmetic of `uintptr_t`, and only looks whether the sum is behind
the end of the heap.  The blocks lie in the heap, next to each other, if and only if no request
that is accepted wraps around (`sound_iff`).
-/
import Bailuwan.BlockAddress
import Bailuwan.Stdio

namespace Bailuwan

namespace Klib

/-- `RANGE(st, ed)` -/
structure Area (m : DataModel) where
  st : BitVec m.bits
  ed : BitVec m.bits

variable {m : DataModel}

/-- `ROUNDUP(a, 8)` -/
def roundup (a : BitVec m.bits) : BitVec m.bits := (a + 8 - 1) &&& ~~~ (8 - 1)

/-- `malloc`: the pointer, and `alloc_base`, which is -1 before the first call. -/
def malloc (heap : Area m) (allocBase size : BitVec m.bits) : BitVec m.bits × BitVec m.bits :=
  let allocBase := if allocBase = -1 then roundup heap.st else allocBase
  let size := roundup size
  let newBase := allocBase + size
  if newBase > heap.ed then (0, allocBase) else (allocBase, newBase)

/-- A call, with `alloc_base` before and after it. -/
structure Call (m : DataModel) where
  size : BitVec m.bits
  before : BitVec m.bits
  ptr : BitVec m.bits
  after : BitVec m.bits

/-- The calls of a program, which also calls `free`, which does nothing. -/
def mallocs (heap : Area m) : BitVec m.bits → List (BitVec m.bits) → List (Call m)
  | _, [] => []
  | allocBase, size :: sizes =>
      let r := malloc heap allocBase size
      ⟨size, allocBase, r.1, r.2⟩ :: mallocs heap r.2 sizes

/-- Where the next block is going to be. -/
def base (heap : Area m) (allocBase : BitVec m.bits) : BitVec m.bits :=
  if allocBase = -1 then roundup heap.st else allocBase

/-- A block is aligned and lies in the heap; a refused request leaves the next block where it
was. -/
def Call.Good (heap : Area m) (c : Call m) : Prop :=
  if c.ptr = 0 then base heap c.after = base heap c.before
  else 8 ∣ c.ptr.toNat ∧ heap.st.toNat ≤ c.ptr.toNat ∧ c.ptr.toNat + c.size.toNat ≤ heap.ed.toNat

/-- The blocks of two calls have no byte in common. -/
def Call.Apart (c d : Call m) : Prop :=
  c.ptr = 0 ∨ d.ptr = 0 ∨ c.ptr.toNat + c.size.toNat ≤ d.ptr.toNat ∨
    d.ptr.toNat + d.size.toNat ≤ c.ptr.toNat

/-- **The allocator is sound** for a program. -/
structure MallocSound (heap : Area m) (sizes : List (BitVec m.bits)) : Prop where
  good : ∀ c ∈ mallocs heap (-1) sizes, c.Good heap
  apart : (mallocs heap (-1) sizes).Pairwise Call.Apart

/-- The size in multiples of 8, which may be the size of the address space. -/
def rounded (size : ℕ) : ℕ := (size + 7) / 8 * 8

/-- If the call is accepted then its sum does not wrap around, but perhaps to 0 from the end of
the address space when the heap ends there too; and at address 0 the base does not move. -/
def Call.NoWrap (heap : Area m) (c : Call m) : Prop :=
  ((base heap c.before).toNat + rounded c.size.toNat) % 2 ^ m.bits ≤ heap.ed.toNat →
    if base heap c.before = 0 then rounded c.size.toNat % 2 ^ m.bits = 0
    else (base heap c.before).toNat + rounded c.size.toNat < 2 ^ m.bits ∨
      (base heap c.before).toNat + rounded c.size.toNat = 2 ^ m.bits ∧
        (base heap c.before).toNat + c.size.toNat ≤ heap.ed.toNat

/-! ## Rounding -/

/-- `ROUNDUP` rounds up modulo the size of a pointer. -/
theorem toNat_roundup (a : BitVec m.bits) :
    (roundup a).toNat = rounded a.toNat % 2 ^ m.bits := by
  have h8 : (8 : BitVec m.bits) = 7 + 1 := by cases m <;> rfl
  have h7 : (7 : BitVec m.bits) = BitVec.ofNat m.bits (2 ^ 3 - 1) := rfl
  have hseven : (7 : BitVec m.bits).toNat = 7 := by cases m <;> rfl
  have hlow := toNat_and_not_low (a + 7) 3
  rw [← h7, BitVec.toNat_add, hseven] at hlow
  rw [roundup, h8, ← BitVec.add_assoc, BitVec.add_sub_cancel, BitVec.add_sub_cancel, hlow,
    rounded]
  -- 8 divides the size of the address space
  cases m with
  | ILP32 =>
      show _ % 2 ^ 32 / 2 ^ 3 * 2 ^ 3 = _ % 2 ^ 32
      omega
  | LP64 =>
      show _ % 2 ^ 64 / 2 ^ 3 * 2 ^ 3 = _ % 2 ^ 64
      omega

/-- Rounding makes nothing smaller. -/
theorem le_rounded (n : ℕ) : n ≤ rounded n := by
  rw [rounded]
  omega

/-- What is rounded is a multiple of 8. -/
theorem dvd_rounded (n : ℕ) : 8 ∣ rounded n := Dvd.intro_left _ rfl

theorem dvd_bits (m : DataModel) : 8 ∣ 2 ^ m.bits := by cases m <;> decide

/-- What `ROUNDUP` gives is a multiple of 8, also where it wraps. -/
theorem dvd_roundup (a : BitVec m.bits) : 8 ∣ (roundup a).toNat := by
  rw [toNat_roundup]
  exact (Nat.dvd_mod_iff (dvd_bits m)).mpr (dvd_rounded _)

/-- A rounded address is not -1. -/
theorem base_eq_self (heap : Area m) {x : BitVec m.bits} (h : 8 ∣ x.toNat) : base heap x = x := by
  refine if_neg ?_
  rintro rfl
  exact absurd h (by cases m <;> decide)

/-- The heap begins at or below the first block, unless that is at address 0. -/
theorem start_le_roundup (a : BitVec m.bits) (h : roundup a ≠ 0) :
    a.toNat ≤ (roundup a).toNat := by
  have hlt := a.isLt
  have hne : (roundup a).toNat ≠ 0 := fun h0 => h (BitVec.eq_of_toNat_eq h0)
  have hle := le_rounded a.toNat
  have hdvd := dvd_bits m
  rw [toNat_roundup] at hne ⊢
  rcases Nat.lt_or_ge (rounded a.toNat) (2 ^ m.bits) with hlt' | hge
  · rwa [Nat.mod_eq_of_lt hlt']
  · -- rounded up to the end of the address space
    have heq : rounded a.toNat = 2 ^ m.bits := by
      obtain ⟨k, hk⟩ := hdvd
      rw [rounded] at hge ⊢
      omega
    rw [heq, Nat.mod_self] at hne
    exact absurd rfl hne

/-! ## One call -/

/-- The base is behind all blocks, or has come to the end of the address space. -/
structure Inv (heap : Area m) (allocBase : BitVec m.bits) (earlier : List (Call m)) : Prop where
  aligned : 8 ∣ (base heap allocBase).toNat
  start : base heap allocBase ≠ 0 → heap.st.toNat ≤ (base heap allocBase).toNat
  below : base heap allocBase ≠ 0 → ∀ c ∈ earlier, c.ptr = 0 ∨
    c.ptr.toNat + c.size.toNat ≤ (base heap allocBase).toNat

/-- A call whose block is good and apart from the earlier ones, and after which the base is
behind it too. -/
structure Placed (heap : Area m) (earlier : List (Call m)) (c : Call m) : Prop where
  good : c.Good heap
  apart : ∀ d ∈ earlier, d.Apart c
  inv : Inv heap c.after (c :: earlier)

variable {heap : Area m} {allocBase size : BitVec m.bits} {earlier : List (Call m)}

/-- Before the first call nothing is allocated. -/
theorem inv_start (heap : Area m) : Inv heap (-1) [] where
  aligned := by
    rw [base, if_pos rfl]
    exact dvd_roundup heap.st
  start := by
    rw [base, if_pos rfl]
    exact start_le_roundup heap.st
  below _ _ hc := absurd hc List.not_mem_nil

/-- The call that is made. -/
def call (heap : Area m) (allocBase size : BitVec m.bits) : Call m :=
  ⟨size, allocBase, (malloc heap allocBase size).1, (malloc heap allocBase size).2⟩

/-- `malloc` compares the end of the block with that of the heap. -/
theorem malloc_eq (heap : Area m) (allocBase size : BitVec m.bits) :
    malloc heap allocBase size =
      if base heap allocBase + roundup size > heap.ed then (0, base heap allocBase)
      else (base heap allocBase, base heap allocBase + roundup size) := rfl

/-- The end of a block wraps with the addresses. -/
theorem toNat_sum (heap : Area m) (allocBase size : BitVec m.bits) :
    (base heap allocBase + roundup size).toNat =
      ((base heap allocBase).toNat + rounded size.toNat) % 2 ^ m.bits := by
  rw [BitVec.toNat_add, toNat_roundup, Nat.add_mod_mod]

/-- A call that is refused gives a null pointer. -/
theorem call_refused (hed : heap.ed.toNat < (base heap allocBase + roundup size).toNat) :
    call heap allocBase size = ⟨size, allocBase, 0, base heap allocBase⟩ := by
  rw [call, malloc_eq, if_pos (BitVec.lt_def.mpr hed)]

/-- A call that is accepted gives the base and moves it behind the block. -/
theorem call_accepted (hed : (base heap allocBase + roundup size).toNat ≤ heap.ed.toNat) :
    call heap allocBase size =
      ⟨size, allocBase, base heap allocBase, base heap allocBase + roundup size⟩ := by
  rw [call, malloc_eq, if_neg fun hlt => not_lt.mpr hed (BitVec.lt_def.mp hlt)]

/-- The base stays aligned, also where it wraps around. -/
theorem dvd_sum (h : 8 ∣ (base heap allocBase).toNat) (size : BitVec m.bits) :
    8 ∣ (base heap allocBase + roundup size).toNat := by
  rw [toNat_sum]
  exact (Nat.dvd_mod_iff (dvd_bits m)).mpr (Nat.dvd_add h (dvd_rounded _))

/-- The base stays aligned. -/
theorem base_call (h : 8 ∣ (base heap allocBase).toNat) (size : BitVec m.bits) :
    8 ∣ (base heap (call heap allocBase size).after).toNat := by
  rcases Nat.lt_or_ge heap.ed.toNat (base heap allocBase + roundup size).toNat with hed | hed
  · rw [call_refused hed, base_eq_self heap h]
    exact h
  · have hsum := dvd_sum h size
    rw [call_accepted hed, base_eq_self heap hsum]
    exact hsum

/-- A refused call leaves the base where it is. -/
theorem Inv.refused (h : Inv heap allocBase earlier)
    (hed : heap.ed.toNat < (base heap allocBase + roundup size).toNat) :
    Placed heap earlier (call heap allocBase size) := by
  have hself := base_eq_self heap h.aligned
  rw [call_refused hed]
  refine ⟨?_, fun d _ => .inr (.inl rfl), ⟨?_, ?_, fun hne => ?_⟩⟩
  · rw [Call.Good, if_pos rfl]
    exact hself
  · rw [hself]
    exact h.aligned
  · rw [hself]
    exact h.start
  · rw [hself] at hne ⊢
    exact List.forall_mem_cons.mpr ⟨.inl rfl, h.below hne⟩

/-- At address 0 the base does not move, and the block is no block. -/
theorem Inv.accepted_null (h : Inv heap allocBase earlier)
    (hed : (base heap allocBase + roundup size).toNat ≤ heap.ed.toNat)
    (h0 : base heap allocBase = 0) (hn : rounded size.toNat % 2 ^ m.bits = 0) :
    Placed heap earlier (call heap allocBase size) := by
  have hround : roundup size = 0 := BitVec.eq_of_toNat_eq ((toNat_roundup size).trans hn)
  have hsame : base heap allocBase + roundup size = base heap allocBase := by
    rw [hround]
    exact BitVec.add_zero _
  have hself := base_eq_self heap h.aligned
  rw [call_accepted hed, hsame]
  refine ⟨?_, fun d _ => .inr (.inl h0), ⟨?_, ?_, fun hne => ?_⟩⟩
  · rw [Call.Good, if_pos h0]
    exact hself
  · rw [hself]
    exact h.aligned
  · rw [hself]
    exact h.start
  · rw [hself] at hne
    exact absurd h0 hne

/-- A call that is accepted without wrapping around moves the base behind its block. -/
theorem Inv.accepted (h : Inv heap allocBase earlier)
    (hed : (base heap allocBase + roundup size).toNat ≤ heap.ed.toNat)
    (h0 : base heap allocBase ≠ 0)
    (hn : (base heap allocBase).toNat + rounded size.toNat < 2 ^ m.bits ∨
      (base heap allocBase).toNat + rounded size.toNat = 2 ^ m.bits ∧
        (base heap allocBase).toNat + size.toNat ≤ heap.ed.toNat) :
    Placed heap earlier (call heap allocBase size) := by
  have hsum := toNat_sum heap allocBase size
  have hsize := le_rounded size.toNat
  have haligned := dvd_sum h.aligned size
  have hself := base_eq_self heap haligned
  -- the next base is behind the block, or 0
  have hbehind : base heap allocBase + roundup size = 0 ∨
      (base heap allocBase + roundup size).toNat =
        (base heap allocBase).toNat + rounded size.toNat := by
    rcases hn with hlt | ⟨heq, -⟩
    · exact .inr (hsum.trans (Nat.mod_eq_of_lt hlt))
    · rw [heq, Nat.mod_self] at hsum
      exact .inl (BitVec.eq_of_toNat_eq hsum)
  have hinside : (base heap allocBase).toNat + size.toNat ≤ heap.ed.toNat := by
    rcases hn with hlt | ⟨-, hle⟩
    · rw [hsum, Nat.mod_eq_of_lt hlt] at hed
      omega
    · exact hle
  rw [call_accepted hed]
  refine ⟨?_, fun d hd => ?_, ⟨?_, ?_, ?_⟩⟩
  · rw [Call.Good, if_neg h0]
    exact ⟨h.aligned, h.start h0, hinside⟩
  · exact (h.below h0 d hd).imp_right fun hd => .inr (.inl hd)
  · rw [hself]
    exact haligned
  · rw [hself]
    intro hne
    rw [hbehind.resolve_left hne]
    exact (h.start h0).trans (Nat.le_add_right _ _)
  · rw [hself]
    intro hne
    rw [hbehind.resolve_left hne]
    refine List.forall_mem_cons.mpr ⟨.inr (Nat.add_le_add_left hsize _), fun d hd => ?_⟩
    exact (h.below h0 d hd).imp_right fun hle => hle.trans (Nat.le_add_right _ _)

/-- **One call**: what is given out is behind all blocks, and before the base that comes then. -/
theorem Inv.step (h : Inv heap allocBase earlier) (hn : (call heap allocBase size).NoWrap heap) :
    Placed heap earlier (call heap allocBase size) := by
  rcases Nat.lt_or_ge heap.ed.toNat (base heap allocBase + roundup size).toNat with hed | hed
  · exact h.refused hed
  · have hcond := hn (by rwa [toNat_sum] at hed)
    by_cases h0 : base heap allocBase = 0
    · exact h.accepted_null hed h0 (Eq.mp (if_pos h0) hcond)
    · exact h.accepted hed h0 (Eq.mp (if_neg h0) hcond)

/-- A call whose block is good does not wrap around. -/
theorem noWrap_of_good (h : 8 ∣ (base heap allocBase).toNat)
    (hg : (call heap allocBase size).Good heap) : (call heap allocBase size).NoWrap heap := by
  intro hacc
  have hed : (base heap allocBase + roundup size).toNat ≤ heap.ed.toNat := by
    rw [toNat_sum]
    exact hacc
  rw [call_accepted hed] at hg
  show if base heap allocBase = 0 then _ else _
  split_ifs with h0
  · rw [Call.Good, if_pos h0, base_eq_self heap (dvd_sum h size), h0] at hg
    have hround : roundup size = 0 := (BitVec.zero_add _).symm.trans hg
    exact (toNat_roundup size).symm.trans (congrArg BitVec.toNat hround)
  · -- a block that ends in the address space is rounded up to its end at most
    rw [Call.Good, if_neg h0] at hg
    have hin : (base heap allocBase).toNat + size.toNat ≤ heap.ed.toNat := hg.2.2
    have hlt := heap.ed.isLt
    have hle : (base heap allocBase).toNat + rounded size.toNat ≤ 2 ^ m.bits := by
      obtain ⟨k, hk⟩ := dvd_bits m
      obtain ⟨b, hb⟩ := h
      rw [rounded]
      omega
    exact (Nat.lt_or_eq_of_le hle).imp_right fun heq => ⟨heq, hin⟩

/-! ## A program -/

/-- **All calls**, by induction on the sizes: each block is behind the blocks before it. -/
theorem Inv.run {sizes : List (BitVec m.bits)} (h : Inv heap allocBase earlier)
    (hn : ∀ c ∈ mallocs heap allocBase sizes, c.NoWrap heap) :
    (∀ c ∈ mallocs heap allocBase sizes, c.Good heap) ∧
      (mallocs heap allocBase sizes).Pairwise Call.Apart ∧
      ∀ d ∈ earlier, ∀ c ∈ mallocs heap allocBase sizes, d.Apart c := by
  induction sizes generalizing allocBase earlier with
  | nil =>
      refine ⟨fun c hc => ?_, List.Pairwise.nil, fun d _ c hc => ?_⟩
      · exact absurd hc List.not_mem_nil
      · exact absurd hc List.not_mem_nil
  | cons size sizes ih =>
      have hcons : mallocs heap allocBase (size :: sizes) =
          call heap allocBase size :: mallocs heap (call heap allocBase size).after sizes := rfl
      rw [hcons] at hn ⊢
      obtain ⟨hfirst, hrest⟩ := List.forall_mem_cons.mp hn
      obtain ⟨hgood, hapart, hinv⟩ := h.step hfirst
      obtain ⟨hgoods, haparts, hearlier⟩ := ih hinv hrest
      obtain ⟨hhead, htail⟩ := List.forall_mem_cons.mp hearlier
      refine ⟨List.forall_mem_cons.mpr ⟨hgood, hgoods⟩, List.pairwise_cons.mpr ⟨hhead, haparts⟩,
        ?_⟩
      intro d hd
      exact List.forall_mem_cons.mpr ⟨hapart d hd, htail d hd⟩

/-- If the blocks of a program are good, none of its calls wraps around. -/
theorem noWrap_of_forall_good {sizes : List (BitVec m.bits)} (h : 8 ∣ (base heap allocBase).toNat)
    (hg : ∀ c ∈ mallocs heap allocBase sizes, c.Good heap) :
    ∀ c ∈ mallocs heap allocBase sizes, c.NoWrap heap := by
  induction sizes generalizing allocBase with
  | nil => exact fun c hc => absurd hc List.not_mem_nil
  | cons size sizes ih =>
      obtain ⟨hfirst, hrest⟩ := List.forall_mem_cons.mp hg
      exact List.forall_mem_cons.mpr ⟨noWrap_of_good h hfirst, ih (base_call h size) hrest⟩

/-- **The blocks of a program lie apart in the heap** if and only if no call that is accepted
wraps around. -/
theorem sound_iff (heap : Area m) (sizes : List (BitVec m.bits)) :
    MallocSound heap sizes ↔ ∀ c ∈ mallocs heap (-1) sizes, c.NoWrap heap := by
  constructor
  · intro h
    exact noWrap_of_forall_good (inv_start heap).aligned h.good
  · intro hn
    obtain ⟨hgood, hapart, -⟩ := (inv_start heap).run hn
    exact ⟨hgood, hapart⟩

/-- A heap of 32-bit addresses. -/
def wordHeap : Area .ILP32 := ⟨0x80001000#32, 0x88000000#32⟩

/-- Two blocks. -/
theorem sound_two : MallocSound wordHeap [5#32, 16#32] := by
  rw [sound_iff]
  have hcalls : mallocs wordHeap (-1) [5#32, 16#32] =
      [⟨5#32, -1, 0x80001000#32, 0x80001008#32⟩,
        ⟨16#32, 0x80001008#32, 0x80001008#32, 0x80001018#32⟩] := rfl
  rw [hcalls]
  refine List.forall_mem_cons.mpr ⟨?_, List.forall_mem_cons.mpr ⟨?_, ?_⟩⟩
  · exact fun _ => .inl (by decide)
  · exact fun _ => .inl (by decide)
  · exact fun c hc => absurd hc List.not_mem_nil

/-- The largest size is rounded up to 0, and the block behind the heap's end is given out. -/
theorem hugeBlock_not_sound : ¬ MallocSound wordHeap [0xFFFFFFFF#32] := by
  intro h
  have hmem : (⟨0xFFFFFFFF#32, -1, 0x80001000#32, 0x80001000#32⟩ : Call .ILP32) ∈
      mallocs wordHeap (-1) [0xFFFFFFFF#32] := List.mem_singleton.mpr rfl
  have hgood := h.good _ hmem
  rw [Call.Good, if_neg (by decide)] at hgood
  exact absurd hgood.2.2 (by decide)

end Klib

end Bailuwan
