/-
# Ring buffers

A buffer of `n` cells with a read and a write pointer, each owned by one of two agents.  The
cells from the read pointer up to the write pointer hold a queue; the writer stages further
cells behind it and publishes them by moving its pointer.  `Holds` says which queue and
which staged cells a buffer holds, and there is one rule for each operation.

Two pointers cannot tell a full buffer from an empty one: publishing is sound while a cell
is left (`Holds.publish`), and brings the pointers together when none is (`Holds.full`).
-/
import Mathlib.Data.List.Basic
import Mathlib.Logic.Function.Basic

namespace RingBuffer

variable {α : Type*} (mem : ℕ → α) (n : ℕ)

/-! ## Reading around the end -/

/-- Consecutive cells. -/
def slice (start len : ℕ) : List α := (List.range len).map fun i => mem (start + i)

/-- Consecutive cells, going on at the beginning of the buffer. -/
def window (start len : ℕ) : List α := (List.range len).map fun i => mem ((start + i) % n)

variable {mem n} {start len k : ℕ}

@[simp] theorem length_window : (window mem n start len).length = len := by simp [window]
@[simp] theorem window_zero : window mem n start 0 = [] := rfl

/-- The window with one cell more. -/
theorem window_succ :
    window mem n start (len + 1) = window mem n start len ++ [mem ((start + len) % n)] := by
  simp [window, List.range_succ]

/-- A window is two windows, the second one where the first one ends. -/
theorem window_add (a b : ℕ) : window mem n start (a + b) =
    window mem n start a ++ window mem n ((start + a) % n) b := by
  induction b with
  | zero => simp
  | succ b ih =>
      rw [← Nat.add_assoc, window_succ, window_succ, ih, List.append_assoc, Nat.mod_add_mod,
        Nat.add_assoc]

/-- Up to the end of the buffer it is a slice. -/
theorem window_eq_slice (h : start + len ≤ n) : window mem n start len = slice mem start len := by
  refine List.map_congr_left fun i hi => ?_
  have hi' : i < len := List.mem_range.mp hi
  rw [Nat.mod_eq_of_lt (by omega)]

/-- Beyond it there are two slices. -/
theorem window_eq_slices (hstart : start ≤ n) (h : n - start ≤ len) (hlen : len ≤ n) :
    window mem n start len = slice mem start (n - start) ++ slice mem 0 (len - (n - start)) := by
  have hadd : window mem n start (n - start + (len - (n - start))) = _ := window_add ..
  rw [show n - start + (len - (n - start)) = len by omega, show start + (n - start) = n by omega,
    Nat.mod_self] at hadd
  rw [hadd, window_eq_slice (by omega), window_eq_slice (by omega)]

/-- Different cells of a window of at most `n` cells. -/
theorem mod_ne {i : ℕ} (hi : i < k) (hk : k < n) : (start + i) % n ≠ (start + k) % n := by
  intro heq
  have hdvd : n ∣ start + k - (start + i) :=
    Nat.dvd_of_mod_eq_zero (Nat.sub_mod_eq_zero_of_mod_eq heq.symm)
  have := Nat.le_of_dvd (by omega) hdvd
  omega

/-- A cell behind the window does not belong to it. -/
theorem window_update (hk : len ≤ k) (hn : k < n) (x : α) :
    window (Function.update mem ((start + k) % n) x) n start len = window mem n start len := by
  refine List.map_congr_left fun i hi => ?_
  have hi' : i < len := List.mem_range.mp hi
  exact Function.update_of_ne (mod_ne (by omega) hn) ..

/-! ## What a buffer holds -/

/-- The buffer holds the queue `q`, oldest first, and behind it the cells `staged`. -/
structure Holds (mem : ℕ → α) (n rptr wptr : ℕ) (q staged : List α) : Prop where
  cells : window mem n rptr (q.length + staged.length) = q ++ staged
  left : q.length < n
  room : q.length + staged.length ≤ n
  rptr_lt : rptr < n
  wptr_eq : wptr = (rptr + q.length) % n

namespace Holds

variable {rptr wptr : ℕ} {q staged : List α}

/-- An empty buffer. -/
theorem empty (mem : ℕ → α) (hn : 0 < n) : Holds mem n 0 0 [] [] :=
  ⟨rfl, hn, Nat.zero_le _, hn, rfl⟩

/-- The writing position is in the ring. -/
theorem wptr_lt (h : Holds mem n rptr wptr q staged) : wptr < n := by
  rw [h.wptr_eq]
  exact Nat.mod_lt _ (by have := h.left; omega)

/-- **The pointers tell the length of the queue.** -/
theorem used (h : Holds mem n rptr wptr q staged) : (wptr + n - rptr) % n = q.length := by
  have hr := h.rptr_lt
  have hq := h.left
  rw [h.wptr_eq]
  rcases Nat.lt_or_ge (rptr + q.length) n with hlt | hge
  · rw [Nat.mod_eq_of_lt hlt, show rptr + q.length + n - rptr = q.length + n by omega,
      Nat.add_mod_right, Nat.mod_eq_of_lt hq]
  · have hwrap : (rptr + q.length) % n = rptr + q.length - n := by
      rw [Nat.mod_eq_sub_mod hge, Nat.mod_eq_of_lt (by omega)]
    rw [hwrap, show rptr + q.length - n + n - rptr = q.length by omega, Nat.mod_eq_of_lt hq]

/-- The queue is what the reader finds. -/
theorem read (h : Holds mem n rptr wptr q staged) (hk : k ≤ q.length) :
    window mem n rptr k = q.take k := by
  have hcells := congrArg (List.take k) h.cells
  rw [List.take_append_of_le_length hk, show q.length + staged.length =
    k + (q.length + staged.length - k) by omega, window_add, List.take_append_of_le_length (by simp),
    List.take_of_length_le (by simp)] at hcells
  exact hcells

/-- **The reader takes `k` cells.** -/
theorem take (h : Holds mem n rptr wptr q staged) (hk : k ≤ q.length) :
    Holds mem n ((rptr + k) % n) wptr (q.drop k) staged := by
  have hleft := h.left
  have hroom := h.room
  constructor
  · have hcells := congrArg (List.drop k) h.cells
    rw [List.drop_append_of_le_length hk, show q.length + staged.length =
      k + (q.length + staged.length - k) by omega, window_add,
      List.drop_append_of_le_length (by simp), List.drop_of_length_le (by simp),
      List.nil_append] at hcells
    rw [List.length_drop, ← hcells]
    congr 1
    omega
  · rw [List.length_drop]
    omega
  · rw [List.length_drop]
    omega
  · exact Nat.mod_lt _ (by omega)
  · rw [h.wptr_eq, Nat.mod_add_mod, List.length_drop]
    congr 1
    omega

/-- **The writer stages a cell.** -/
theorem stage (h : Holds mem n rptr wptr q staged) (hroom : q.length + staged.length < n) (x : α) :
    Holds (Function.update mem ((wptr + staged.length) % n) x) n rptr wptr q (staged ++ [x]) := by
  have hcell : (wptr + staged.length) % n = (rptr + (q.length + staged.length)) % n := by
    rw [h.wptr_eq, Nat.mod_add_mod, Nat.add_assoc]
  refine ⟨?_, h.left, ?_, h.rptr_lt, h.wptr_eq⟩
  · rw [List.length_append, List.length_singleton, ← Nat.add_assoc, window_succ, hcell,
      window_update (Nat.le_refl _) hroom, h.cells, Function.update_self, List.append_assoc]
  · rw [List.length_append, List.length_singleton]
    omega

/-- **The writer publishes what it has staged**, leaving a cell. -/
theorem publish (h : Holds mem n rptr wptr q staged) (hroom : q.length + staged.length < n) :
    Holds mem n rptr ((wptr + staged.length) % n) (q ++ staged) [] := by
  constructor
  · simpa using h.cells
  · simpa using hroom
  · simpa using h.room
  · exact h.rptr_lt
  · rw [h.wptr_eq, Nat.mod_add_mod, List.length_append, Nat.add_assoc]

/-- **A full buffer looks empty**: the pointers meet. -/
theorem full (h : Holds mem n rptr wptr q staged) (hfull : q.length + staged.length = n) :
    (wptr + staged.length) % n = rptr := by
  rw [h.wptr_eq, Nat.mod_add_mod, Nat.add_assoc, hfull, Nat.add_mod_right,
    Nat.mod_eq_of_lt h.rptr_lt]

end Holds

end RingBuffer
