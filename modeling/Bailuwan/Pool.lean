/-
# Watchpoints and breakpoints (`sdb/watchpoint.cpp`, `sdb/breakpoint.cpp`)

Both are entries of a static array on two linked lists: `head` for those in use and `free_`
for the others.  The array, the lists and the functions are the same for watchpoints and
breakpoints and in both debuggers, but for what else an entry has; a `Pool` is over this
content.  A pointer to an entry is its place in the array, and may lie beyond it.

Every history of creations and deletions keeps the two lists a partition of the array
(`pools_sound`): the first one has the entries created and not yet deleted, the latest in
front.
-/
import Bailuwan.Expr
import Bailuwan.LinkedList

namespace Bailuwan

namespace Sdb

open LinkedList

/-- What ends the debugger here. -/
inductive PoolFault
  | outOfFuel
  | assertion
  | panic
  /-- A pointer is used after what it points to is freed. -/
  | dangling
  | expr (f : Fault)
  deriving DecidableEq, Repr

/-- `struct watchpoint`, `struct breakpoint`. -/
structure Entry (α : Type) where
  NO : ℕ
  next : Option ℕ
  content : α
  deriving DecidableEq, Repr

/-- The array with `head` and `free_`. -/
structure Pool (α : Type) where
  entry : ℕ → Entry α
  head : Option ℕ
  free : Option ℕ

namespace Pool

variable {α : Type} (p : Pool α)

/-- `init_wp_pool`, `init_bp_pool`, for `n` entries numbered from `base` on. -/
def init (n base : ℕ) : Pool α where
  entry i :=
    if i < n then
      { p.entry i with NO := base + i, next := if i = n - 1 then none else some (i + 1) }
    else p.entry i
  head := none
  free := some 0

/-- The `next` fields. -/
def links (i : ℕ) : Option ℕ := (p.entry i).next

/-- `p->next = q` -/
def setNext (i : ℕ) (q : Option ℕ) : Pool α :=
  { p with entry := Function.update p.entry i { p.entry i with next := q } }

/-- An assignment to the content of an entry. -/
def setContent (i : ℕ) (x : α) : Pool α :=
  { p with entry := Function.update p.entry i { p.entry i with content := x } }

/-- `new_wp`, `new_bp`. -/
def new : Except PoolFault (ℕ × Pool α) :=
  match p.free with
  | none => .error .assertion
  | some i => .ok (i, { p.setNext i p.head with head := some i, free := p.links i })

/-- The loop of `free_wp` from `q` on: the entry before `wp`. -/
def findPrev (wp : ℕ) : ℕ → Option ℕ → Except PoolFault ℕ
  | 0, _ => .error .outOfFuel
  | _ + 1, none => .error .panic
  | fuel + 1, some i => if p.links i = some wp then .ok i else findPrev wp fuel (p.links i)

/-- `free_wp`, `free_bp`, once the string is freed. -/
def release (fuel wp : ℕ) : Except PoolFault (Pool α) :=
  if p.head = some wp then
    .ok { p.setNext wp p.free with head := p.links wp, free := some wp }
  else do
    let i ← p.findPrev wp fuel p.head
    .ok { (p.setNext i (p.links wp)).setNext wp p.free with free := some wp }

/-! ## Fields -/

variable {p} {i j wp n base : ℕ} {q : Option ℕ} {x : α} {a b l : List ℕ}

/-- Linking an entry changes its link only. -/
@[simp] theorem links_setNext : (p.setNext i q).links = Function.update p.links i q := by
  funext j
  by_cases h : j = i
  · subst h
    simp [links, setNext]
  · simp [links, setNext, h]

@[simp] theorem links_setContent : (p.setContent i x).links = p.links := by
  funext j
  by_cases h : j = i
  · subst h
    simp [links, setContent]
  · simp [links, setContent, h]

@[simp] theorem NO_setNext : ((p.setNext i q).entry j).NO = (p.entry j).NO := by
  by_cases h : j = i
  · subst h
    simp [setNext]
  · simp [setNext, h]

@[simp] theorem NO_setContent : ((p.setContent i x).entry j).NO = (p.entry j).NO := by
  by_cases h : j = i
  · subst h
    simp [setContent]
  · simp [setContent, h]

@[simp] theorem content_setNext : ((p.setNext i q).entry j).content = (p.entry j).content := by
  by_cases h : j = i
  · subst h
    simp [setNext]
  · simp [setNext, h]

/-! ## The partition -/

/-- The entries in use are `act`, the others are on the free list, and every entry has its
number.  Lists that end have no cycles, and a permutation of the array has every entry
once. -/
structure Partitioned (n base : ℕ) (act : List ℕ) (p : Pool α) : Prop where
  lists : ∃ l, Chain p.links p.head act ∧ Chain p.links p.free l ∧
    List.Perm (act ++ l) (List.range n)
  NO : ∀ i < n, (p.entry i).NO = base + i

/-- The entries from `k` on are linked in order. -/
theorem chain_init {k m : ℕ} (h : k + m + 1 = n) :
    Chain (p.init n base).links (some k) (List.range' k (m + 1)) := by
  induction m generalizing k with
  | zero =>
      refine ⟨rfl, ?_⟩
      show (p.init n base).links k = none
      simp only [links, init]
      rw [if_pos (by omega), if_pos (by omega)]
  | succ m ih =>
      refine ⟨rfl, ?_⟩
      have hnext : (p.init n base).links k = some (k + 1) := by
        simp only [links, init]
        rw [if_pos (by omega), if_neg (by omega)]
      rw [hnext]
      exact ih (by omega)

/-- After `init` every entry is free. -/
theorem partitioned_init (hn : 0 < n) : Partitioned n base [] (p.init n base) := by
  refine ⟨⟨List.range' 0 n, rfl, ?_, ?_⟩, fun i hi => ?_⟩
  · obtain ⟨m, rfl⟩ := Nat.exists_eq_add_one_of_ne_zero (Nat.ne_of_gt hn)
    exact chain_init (by omega)
  · rw [List.nil_append, List.range_eq_range']
  · simp only [init]
    rw [if_pos hi]

/-- **A creation** takes the first free entry. -/
theorem Partitioned.new {act : List ℕ} {p' : Pool α} (h : Partitioned n base act p)
    (hnew : p.new = .ok (i, p')) : Partitioned n base (i :: act) p' := by
  obtain ⟨l, hact, hfree, hperm⟩ := h.lists
  rw [Pool.new] at hnew
  cases hf : p.free with
  | none =>
      rw [hf] at hnew
      cases hnew
  | some k =>
      rw [hf] at hnew hfree
      cases hnew
      obtain ⟨t, rfl, ht⟩ := hfree.eq_cons
      have hnd : (act ++ i :: t).Nodup := hperm.nodup_iff.mpr List.nodup_range
      have hi : i ∉ act := fun hmem =>
        List.disjoint_of_nodup_append hnd hmem (List.mem_cons_self ..)
      have hit : i ∉ t := (List.nodup_cons.mp (List.nodup_append.mp hnd).2.1).1
      refine ⟨⟨t, ?_, ?_, ?_⟩, fun j hj => ?_⟩
      · show Chain (p.setNext i p.head).links (some i) (i :: act)
        rw [links_setNext]
        exact hact.push hi
      · show Chain (p.setNext i p.head).links (p.links i) t
        rw [links_setNext]
        exact ht.update hit _
      · exact List.perm_middle.symm.trans hperm
      · exact NO_setNext.trans (h.NO j hj)

/-- The loop finds the entry before `wp`. -/
theorem findPrev_eq (h : Chain p.links q (a ++ j :: wp :: b)) {fuel : ℕ}
    (hfuel : a.length < fuel) : p.findPrev wp fuel q = .ok j := by
  induction a generalizing q fuel with
  | nil =>
      obtain ⟨fuel, rfl⟩ := Nat.exists_eq_add_one_of_ne_zero (Nat.ne_zero_of_lt hfuel)
      obtain ⟨rfl, ht⟩ := h
      rw [findPrev, if_pos ht.eq_some]
  | cons k a ih =>
      obtain ⟨fuel, rfl⟩ := Nat.exists_eq_add_one_of_ne_zero (Nat.ne_zero_of_lt hfuel)
      obtain ⟨rfl, ht⟩ := h
      rw [findPrev, if_neg ht.ne_of_behind]
      exact ih ht (by rw [List.length_cons] at hfuel; omega)

/-- The loop comes to the end of a list without `wp`. -/
theorem findPrev_of_not_mem (h : Chain p.links q l) (hwp : wp ∉ l) {fuel : ℕ}
    (hfuel : l.length < fuel) : p.findPrev wp fuel q = .error .panic := by
  induction l generalizing q fuel with
  | nil =>
      obtain ⟨fuel, rfl⟩ := Nat.exists_eq_add_one_of_ne_zero (Nat.ne_zero_of_lt hfuel)
      obtain rfl : q = none := h
      rfl
  | cons k l ih =>
      obtain ⟨fuel, rfl⟩ := Nat.exists_eq_add_one_of_ne_zero (Nat.ne_zero_of_lt hfuel)
      obtain ⟨rfl, ht⟩ := h
      obtain ⟨-, hwp⟩ := not_or.mp (mt List.mem_cons.mpr hwp)
      rw [findPrev, if_neg (ht.ne_of_not_mem hwp)]
      exact ih ht hwp
        (by rw [List.length_cons] at hfuel; omega)

/-- No more than all the entries are active. -/
theorem Partitioned.length_le {act : List ℕ} (h : Partitioned n base act p) :
    act.length ≤ n := by
  obtain ⟨l, -, -, hperm⟩ := h.lists
  have hlen := hperm.length_eq
  rw [List.length_append, List.length_range] at hlen
  omega

/-- The first entry is deleted: both lists afterwards. -/
theorem release_head (hact : Chain p.links p.head (i :: b)) (hfree : Chain p.links p.free l)
    (hi : i ∉ l) : ∃ p', p.release (n + 1) i = .ok p' ∧ Chain p'.links p'.head b ∧
      Chain p'.links p'.free (i :: l) ∧
      ∀ k, (p'.entry k).NO = (p.entry k).NO ∧ (p'.entry k).content = (p.entry k).content := by
  have hnotin := (List.nodup_cons.mp hact.nodup).1
  rw [Pool.release, if_pos hact.eq_some]
  refine ⟨_, rfl, ?_, ?_, fun k => ⟨NO_setNext, content_setNext⟩⟩
  · show Chain (p.setNext i p.free).links (p.links i) b
    rw [links_setNext]
    exact hact.tail.update hnotin _
  · show Chain (p.setNext i p.free).links (some i) (i :: l)
    rw [links_setNext]
    exact hfree.push hi

/-- An entry behind `j` is deleted. -/
theorem release_behind (hact : Chain p.links p.head (a ++ j :: i :: b))
    (hfree : Chain p.links p.free l) (hi : i ∉ l) (hj : j ∉ l) (hlen : a.length ≤ n) :
    ∃ p', p.release (n + 1) i = .ok p' ∧ Chain p'.links p'.head (a ++ j :: b) ∧
      Chain p'.links p'.free (i :: l) ∧
      ∀ k, (p'.entry k).NO = (p.entry k).NO ∧ (p'.entry k).content = (p.entry k).content := by
  have hnotin : i ∉ a ++ j :: b := by
    have hnd := hact.nodup
    rw [List.append_cons a j] at hnd ⊢
    exact (List.nodup_cons.mp (List.nodup_middle.mp hnd)).1
  rw [Pool.release, if_neg hact.ne_of_behind, findPrev_eq hact (Nat.lt_succ_of_le hlen)]
  refine ⟨_, rfl, ?_, ?_, fun k =>
    ⟨NO_setNext.trans NO_setNext, content_setNext.trans content_setNext⟩⟩
  · show Chain ((p.setNext j (p.links i)).setNext i p.free).links p.head _
    rw [links_setNext, links_setNext]
    exact hact.unlink.update hnotin _
  · show Chain ((p.setNext j (p.links i)).setNext i p.free).links (some i) (i :: l)
    rw [links_setNext, links_setNext]
    exact (hfree.update hj _).push hi

/-- **A deletion** puts an entry in use in front of the free ones, and touches nothing but
links. -/
theorem Partitioned.release {act : List ℕ} (h : Partitioned n base act p) (hi : i ∈ act) :
    ∃ p', p.release (n + 1) i = .ok p' ∧ Partitioned n base (act.erase i) p' ∧
      ∀ j, (p'.entry j).content = (p.entry j).content := by
  obtain ⟨l, hact, hfree, hperm⟩ := h.lists
  have hlen := h.length_le
  have hdisj := List.disjoint_of_nodup_append (hperm.nodup_iff.mpr List.nodup_range)
  have hil : i ∉ l := hdisj hi
  obtain ⟨a, b, rfl, hia⟩ := List.eq_append_cons_of_mem hi
  have hmove : List.Perm (a ++ b ++ i :: l) (List.range n) := by
    refine List.Perm.trans ?_ hperm
    rw [List.append_assoc, List.append_assoc]
    have hmid : List.Perm (b ++ i :: l) (i :: (b ++ l)) := List.perm_middle
    exact hmid.append_left a
  rw [List.erase_append_right _ hia, List.erase_cons_head]
  have hdeleted : ∃ p', p.release (n + 1) i = .ok p' ∧ Chain p'.links p'.head (a ++ b) ∧
      Chain p'.links p'.free (i :: l) ∧
      ∀ k, (p'.entry k).NO = (p.entry k).NO ∧ (p'.entry k).content = (p.entry k).content := by
    rcases List.eq_nil_or_concat a with rfl | ⟨a, j, rfl⟩
    · exact release_head hact hfree hil
    · rw [List.concat_eq_append] at hact hdisj hlen ⊢
      rw [List.append_assoc, List.singleton_append] at hact ⊢
      refine release_behind hact hfree hil (hdisj (by simp)) ?_
      simp only [List.length_append, List.length_cons] at hlen
      omega
  obtain ⟨p', hok, hact', hfree', hentries⟩ := hdeleted
  exact ⟨p', hok, ⟨⟨i :: l, hact', hfree', hmove⟩, fun k hk => (hentries k).1.trans (h.NO k hk)⟩,
    fun k => (hentries k).2⟩

/-- An entry that is not in use cannot be deleted. -/
theorem Partitioned.release_of_not_mem {act : List ℕ} (h : Partitioned n base act p)
    (hi : i ∉ act) : p.release (n + 1) i = .error .panic := by
  obtain ⟨l, hact, -, -⟩ := h.lists
  have hlen := h.length_le
  rw [Pool.release, if_neg (hact.ne_of_not_mem hi), findPrev_of_not_mem hact hi (by omega)]
  rfl

/-- The contents do not matter to the lists. -/
theorem Partitioned.setContent {act : List ℕ} (h : Partitioned n base act p) (i : ℕ) (x : α) :
    Partitioned n base act (p.setContent i x) := by
  obtain ⟨l, hact, hfree, hperm⟩ := h.lists
  refine ⟨⟨l, ?_, ?_, hperm⟩, fun j hj => NO_setContent.trans (h.NO j hj)⟩
  · rw [links_setContent]
    exact hact
  · rw [links_setContent]
    exact hfree

end Pool

end Sdb

end Bailuwan
