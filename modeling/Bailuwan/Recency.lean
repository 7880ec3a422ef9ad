/-
# The most recent entries of a log

A bounded list that an entry comes to the front of when it is used (`promote`), whose last
entry drops out when there are too many, holds the most recent distinct entries of the log
of its uses (`recent_concat`).  So an entry is there iff few other entries were used since
its last use (`mem_recent_append_iff`).

Of two such lists with the same uses the longer one holds all that the shorter one holds, in
the same order; that also survives uses of entries that only the longer one holds (`Within`).
The library is over any type of entries.
-/
import Mathlib.Data.List.Dedup
import Mathlib.Data.Finset.Card

namespace Recency

variable {α : Type*} [DecidableEq α] {k k' : ℕ} {log l l' : List α} {t : α}

/-- The last `k` distinct entries of a log, the most recent one first. -/
def recent (k : ℕ) (log : List α) : List α := log.dedup.reverse.take k

/-- `t` comes to the front of a list of at most `k`. -/
def promote (k : ℕ) (l : List α) (t : α) : List α := (t :: l.erase t).take k

/-! ## One use -/

/-- Moved to the front, an entry occurs once. -/
theorem nodup_cons_erase (h : l.Nodup) : (t :: l.erase t).Nodup :=
  List.nodup_cons.mpr ⟨h.not_mem_erase, h.erase t⟩

/-- Promotion keeps the entries distinct. -/
theorem nodup_promote (h : l.Nodup) : (promote k l t).Nodup :=
  (nodup_cons_erase h).sublist (List.take_sublist ..)

/-- An entry of the list moves to the front. -/
theorem promote_of_mem (ht : t ∈ l) (hl : l.length ≤ k) : promote k l t = t :: l.erase t := by
  refine List.take_of_length_le ?_
  rw [List.length_cons, List.length_erase_of_mem ht]
  have := List.length_pos_of_mem ht
  omega

/-- A new entry is put in front while there is room. -/
theorem promote_of_lt (ht : t ∉ l) (hl : l.length < k) : promote k l t = t :: l := by
  rw [promote, List.erase_of_not_mem ht]
  exact List.take_of_length_le hl

/-- A full list drops its last entry. -/
theorem promote_of_full (ht : t ∉ l) (hl : l.length = k) (hk : 0 < k) :
    promote k l t = t :: l.dropLast := by
  obtain ⟨j, rfl⟩ := Nat.exists_eq_succ_of_ne_zero hk.ne'
  rw [promote, List.erase_of_not_mem ht, List.take_succ_cons, List.dropLast_eq_take, hl]
  rfl

/-! ## The log -/

theorem recent_nil : recent k ([] : List α) = [] := List.take_nil

/-- The last access is the last of those without repetition. -/
theorem dedup_concat (log : List α) (t : α) : (log ++ [t]).dedup = log.dedup.erase t ++ [t] := by
  induction log with
  | nil => rfl
  | cons u log ih =>
      rw [List.cons_append]
      by_cases hu : u ∈ log
      · rw [List.dedup_cons_of_mem hu, List.dedup_cons_of_mem (List.mem_append_left _ hu), ih]
      · rw [List.dedup_cons_of_notMem hu]
        by_cases ht : u = t
        · subst ht
          rw [List.dedup_cons_of_mem (List.mem_append_right _ (List.mem_singleton.mpr rfl)), ih,
            List.erase_cons_head, List.erase_of_not_mem (by rwa [List.mem_dedup])]
        · rw [List.dedup_cons_of_notMem (by simp [hu, ht]), ih,
            List.erase_cons_tail (by simpa using ht), List.cons_append]

/-- Reversal keeps what is taken out. -/
theorem reverse_erase (h : l.Nodup) (t : α) : (l.erase t).reverse = l.reverse.erase t := by
  rw [h.erase_eq_filter, (List.nodup_reverse.mpr h).erase_eq_filter, List.filter_reverse]

/-- Entries behind the `k` first do not come among the `k` first by a use. -/
theorem promote_take (k : ℕ) (l : List α) (t : α) : promote k (l.take k) t = promote k l t := by
  cases k with
  | zero => rfl
  | succ k =>
      rw [promote, promote, List.take_succ_cons, List.take_succ_cons]
      congr 1
      induction l generalizing k with
      | nil => rfl
      | cons u l ih =>
          rw [List.take_succ_cons]
          by_cases hu : u = t
          · rw [hu, List.erase_cons_head, List.erase_cons_head, List.take_take, min_self]
          · rw [List.erase_cons_tail (by simpa using hu), List.erase_cons_tail (by simpa using hu)]
            cases k with
            | zero => rfl
            | succ k => rw [List.take_succ_cons, List.take_succ_cons, ih]

/-- **A bounded list holds the most recent entries of its log.** -/
theorem recent_concat (k : ℕ) (log : List α) (t : α) :
    recent k (log ++ [t]) = promote k (recent k log) t := by
  rw [recent, recent, promote_take, dedup_concat, List.reverse_append, List.reverse_singleton,
    reverse_erase (List.nodup_dedup log)]
  rfl

/-- The entries before the last use of `t` are behind it. -/
theorem dedup_split (pre : List α) {post : List α} (ht : t ∉ post) :
    ∃ l, (pre ++ t :: post).dedup.reverse = post.dedup.reverse ++ t :: l := by
  obtain ⟨l, hl⟩ := List.suffix_union_right pre (t :: post.dedup)
  refine ⟨l.reverse, ?_⟩
  rw [List.dedup_append, List.dedup_cons_of_notMem ht, ← hl, List.reverse_append,
    List.reverse_cons, List.append_assoc, List.singleton_append]

/-- An entry is among the most recent if few other ones follow it. -/
theorem mem_recent_append_iff (pre : List α) {post : List α} (ht : t ∉ post) :
    t ∈ recent k (pre ++ t :: post) ↔ post.toFinset.card < k := by
  obtain ⟨l, hl⟩ := dedup_split pre ht
  have hmem : t ∉ post.dedup.reverse := by rwa [List.mem_reverse, List.mem_dedup]
  rw [recent, hl, List.mem_take_iff_idxOf_lt (by simp), List.idxOf_append_of_notMem hmem,
    List.idxOf_cons_self, List.length_reverse, List.card_toFinset, Nat.add_zero]

/-- What is recent has been accessed. -/
theorem mem_of_mem_recent (h : t ∈ recent k log) : t ∈ log := by
  simpa using List.mem_of_mem_take h

/-- The last use of an entry. -/
theorem exists_last_use {σ : Type*} {l : List σ} {p : σ → Prop} (h : ∃ a ∈ l, p a) :
    ∃ pre a post, l = pre ++ a :: post ∧ p a ∧ ∀ b ∈ post, ¬ p b := by
  induction l with
  | nil => simp at h
  | cons b l ih =>
      by_cases hl : ∃ a ∈ l, p a
      · obtain ⟨pre, a, post, rfl, ha, hpost⟩ := ih hl
        exact ⟨b :: pre, a, post, rfl, ha, hpost⟩
      · have hb : p b := by
          obtain ⟨a, ha, hpa⟩ := h
          rcases List.mem_cons.mp ha with rfl | ha
          · exact hpa
          · exact absurd ⟨a, ha, hpa⟩ hl
        exact ⟨[], b, l, rfl, hb, fun a ha hpa => hl ⟨a, ha, hpa⟩⟩

/-- Two ways to tell entries apart count the same number of them. -/
theorem card_map_eq {σ β : Type*} [DecidableEq β] {l : List σ} {f : σ → α} {g : σ → β}
    (h : ∀ a ∈ l, ∀ b ∈ l, f a = f b ↔ g a = g b) :
    (l.map f).toFinset.card = (l.map g).toFinset.card := by
  induction l with
  | nil => rfl
  | cons a l ih =>
      have hl := ih fun b hb b' hb' =>
        h b (List.mem_cons_of_mem a hb) b' (List.mem_cons_of_mem a hb')
      have hmem : f a ∈ (l.map f).toFinset ↔ g a ∈ (l.map g).toFinset := by
        simp only [List.mem_toFinset, List.mem_map]
        refine exists_congr fun b => and_congr_right fun hb => ?_
        exact h b (List.mem_cons_of_mem a hb) a List.mem_cons_self
      rw [List.map_cons, List.map_cons, List.toFinset_cons, List.toFinset_cons,
        Finset.card_insert_eq_ite, Finset.card_insert_eq_ite, hl, if_congr hmem rfl rfl]

/-! ## Two lists -/

/-- What the list of at most `k` entries holds, in its order, and all there is if it is not
full. -/
structure Within (k : ℕ) (l l' : List α) : Prop where
  sublist : l.Sublist l'
  eq : l.length < k → l = l'

/-- A sublist stays one without the last elements. -/
theorem sublist_dropLast {α : Type*} {l l' : List α} (h : l.Sublist l') :
    l.dropLast.Sublist l'.dropLast := by
  rw [← List.reverse_sublist, ← List.tail_reverse, ← List.tail_reverse]
  exact h.reverse.tail

/-- **A longer list holds what a shorter one holds.** -/
theorem Within.promote (h : Within k l l') (hk : k ≤ k') (hl : l.length ≤ k)
    (hl' : l'.length ≤ k') (hpos : 0 < k) : Within k (promote k l t) (promote k' l' t) := by
  by_cases ht : t ∈ l
  · have ht' := h.sublist.subset ht
    have hlen := List.length_pos_of_mem ht
    rw [promote_of_mem ht hl, promote_of_mem ht' hl']
    refine ⟨(h.sublist.erase t).cons_cons t, fun hlt => ?_⟩
    rw [List.length_cons, List.length_erase_of_mem ht] at hlt
    rw [h.eq (by omega)]
  · rcases Nat.lt_or_ge l.length k with hlt | hge
    · obtain rfl := h.eq hlt
      rw [promote_of_lt ht hlt, promote_of_lt ht (hlt.trans_le hk)]
      exact ⟨.refl _, fun _ => rfl⟩
    · have hfull : l.length = k := Nat.le_antisymm hl hge
      have hlen : (t :: l.dropLast).length = k := by
        rw [List.length_cons, List.length_dropLast, hfull]
        omega
      rw [promote_of_full ht hfull hpos]
      refine ⟨?_, fun hlt => absurd hlt (by omega)⟩
      by_cases ht' : t ∈ l'
      · rw [promote_of_mem ht' hl']
        refine ((List.dropLast_sublist l).trans ?_).cons_cons t
        rw [← List.erase_of_not_mem ht]
        exact h.sublist.erase t
      · rcases Nat.lt_or_ge l'.length k' with hlt' | hge'
        · rw [promote_of_lt ht' hlt']
          exact ((List.dropLast_sublist l).trans h.sublist).cons_cons t
        · rw [promote_of_full ht' (Nat.le_antisymm hl' hge') (hpos.trans_le hk)]
          exact (sublist_dropLast h.sublist).cons_cons t

/-- The longer list alone uses an entry of its own. -/
theorem Within.promote_right (h : Within k l l') (hl' : l'.length ≤ k') (ht : t ∉ l)
    (ht' : t ∈ l') : Within k l (Recency.promote k' l' t) where
  sublist := by
    rw [promote_of_mem ht' hl', ← List.erase_of_not_mem ht]
    exact (h.sublist.erase t).cons t
  eq hlt := absurd ht' (h.eq hlt ▸ ht)

end Recency
