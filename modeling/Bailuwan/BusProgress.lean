/-
# Progress on a bus path

A path of the interconnect over time: if the slaves do not refuse a connected transaction
forever and end what has begun, every transaction of the first master ends, and that of any
other master ends unless one with a lower number asks (`Progresses.served`).
-/
import Bailuwan.BusPath
import Bailuwan.LeadsTo

namespace Bailuwan

open Synchronous

/-- The lowest index that is set. -/
theorem priorityEncoder_le {n : ℕ} {req : Fin (n + 1) → Bool} {k : Fin (n + 1)}
    (h : req k = true) : priorityEncoder req ≤ k := by
  obtain ⟨j, hj⟩ : ∃ j, (List.finRange (n + 1)).find? req = some j := by
    refine Option.isSome_iff_exists.mp ?_
    rw [List.find?_isSome]
    exact ⟨k, List.mem_finRange k, h⟩
  obtain ⟨-, i, hi, hget, hlow⟩ := List.find?_eq_some_iff_getElem.mp hj
  rw [priorityEncoder, hj, Option.getD_some, ← hget, List.getElem_finRange]
  by_contra hlt
  have hki : k.val < i := by simpa [Fin.le_def] using hlt
  have hno := hlow k.val hki
  rw [List.getElem_finRange] at hno
  simp [h] at hno

namespace BusPath

variable {n m : ℕ} {A : Type*}

/-- A path over time, whose slaves take what is connected to them and end what has begun. -/
structure Progresses (route : A → Fin (m + 1)) (p : ℕ → BusPath n m)
    (acc : ℕ → Fin (n + 1) → List A) (req : ℕ → Fin (n + 1) → Option A) (start fin : ℕ → Bool) :
    Prop where
  step : ∀ t, p (t + 1) = (p t).next route (req t) (fin t)
  inv : ∀ t, Inv route (p t) (acc t) (req t)
  cycle : ∀ t, Cycle (p t) (acc t) (acc (t + 1)) (req t) (req (t + 1)) (start t) (fin t)
  starts : Recurs fun t => (p t).Open ∧ acc t (p t).owner = [] → start t = true
  ends : LeadsTo (fun t => (p t).Open ∧ acc t (p t).owner ≠ []) fun t => fin t = true

/-- Master `k` has a transaction: it asks for one or has begun one. -/
def Wants (acc : ℕ → Fin (n + 1) → List A) (req : ℕ → Fin (n + 1) → Option A) (k : Fin (n + 1))
    (t : ℕ) : Prop := (current (acc t k) (req t k)).isSome = true

namespace Progresses

variable {route : A → Fin (m + 1)} {p : ℕ → BusPath n m} {acc : ℕ → Fin (n + 1) → List A}
  {req : ℕ → Fin (n + 1) → Option A} {start fin : ℕ → Bool} {k : Fin (n + 1)} {t : ℕ}

/-- A path that is open stays so until its transaction ends. -/
theorem open_next (h : Progresses route p acc req start fin) (ho : (p t).Open)
    (hf : fin t = false) : p (t + 1) = p t := by
  rw [h.step, next_of_open ho hf]

/-- A transaction that has not begun does not end. -/
theorem not_fin_of_nil (h : Progresses route p acc req start fin)
    (hnil : acc t (p t).owner = []) : fin t = false := by
  by_contra hf
  exact ((h.cycle t).fin_open (by simpa using hf)).2 hnil

/-- The owner of the path asks, as long as it has not begun. -/
theorem req_owner (h : Progresses route p acc req start fin) (hb : (p t).arb = .busy)
    (hnil : acc t (p t).owner = []) : ∃ a, req t (p t).owner = some a := by
  obtain ⟨a, ha, -⟩ := (h.inv t).waits hb
  rw [hnil, current_nil] at ha
  exact ⟨a, ha⟩

/-- A path that has opened carries a transaction after a while. -/
theorem begins (h : Progresses route p acc req start fin) :
    LeadsTo (fun t => (p t).Open ∧ acc t (p t).owner = [])
      fun t => (p t).Open ∧ acc t (p t).owner ≠ [] := by
  have hnext : ∀ t, (p t).Open ∧ acc t (p t).owner = [] → p (t + 1) = p t ∧
      acc (t + 1) (p t).owner = if start t = true then (req t (p t).owner).toList else [] := by
    rintro t ⟨ho, hnil⟩
    have hf := h.not_fin_of_nil hnil
    refine ⟨h.open_next ho hf, ?_⟩
    rw [(h.cycle t).acc_next, if_pos ⟨ho, rfl⟩, hnil, hf]
    rfl
  refine (LeadsTo.meets h.starts fun t ht hs => ?_).trans (LeadsTo.of_next ?_)
  · obtain ⟨hp, hacc⟩ := hnext t ht
    rw [hp, hacc, if_neg hs]
    exact ⟨ht.1, rfl⟩
  · rintro t ⟨ht, hs⟩
    obtain ⟨hp, hacc⟩ := hnext t ht
    obtain ⟨a, ha⟩ := h.req_owner ht.1.1 ht.2
    rw [hp, hacc, if_pos hs, ha]
    exact ⟨ht.1, List.cons_ne_nil a []⟩

/-- A path that is open closes. -/
theorem closes (h : Progresses route p acc req start fin) :
    LeadsTo (fun t => (p t).Open) fun t => fin t = true := by
  refine LeadsTo.by_cases (fun t => acc t (p t).owner = []) ?_ h.ends
  exact h.begins.trans h.ends

/-- A master that is granted is connected in the next cycle. -/
theorem connects (h : Progresses route p acc req start fin) (hb : (p t).arb = .busy)
    (hx : (p t).xbar = .idle) : (p (t + 1)).Open := by
  have hnot := not_connected_of_xbar_idle hx
  have hf : fin t = false := by
    by_contra hf
    exact hnot _ ⟨((h.cycle t).fin_open (by simpa using hf)).1, rfl⟩
  obtain ⟨a, ha⟩ := h.req_owner hb ((h.inv t).quiet _ (hnot _))
  rw [h.step]
  constructor
  · simp [BusPath.next, hb, hf]
  · simp [BusPath.next, hx, seen, hb, ha]

/-- A transaction that is granted ends. -/
theorem granted (h : Progresses route p acc req start fin) :
    LeadsTo (fun t => (p t).arb = .busy) fun t => fin t = true := by
  have hopen : LeadsTo (fun t => (p t).arb = .busy) fun t => (p t).Open := by
    refine LeadsTo.by_cases (fun t => (p t).xbar = .busy) (LeadsTo.of_imp fun _ ht => ht) ?_
    refine LeadsTo.of_next fun t ht => h.connects ht.1 ?_
    exact (state_cases _).resolve_right ht.2
  exact hopen.trans h.closes

/-- What is granted stays granted until it ends. -/
theorem granted_next (h : Progresses route p acc req start fin) (hb : (p t).arb = .busy)
    (hf : ¬ fin t = true) : (p (t + 1)).arb = .busy ∧ (p (t + 1)).owner = (p t).owner := by
  rw [h.step]
  simp [BusPath.next, hb, hf]

/-- The transaction of the owner ends. -/
theorem owned (h : Progresses route p acc req start fin) (k : Fin (n + 1)) :
    LeadsTo (fun t => (p t).arb = .busy ∧ (p t).owner = k)
      fun t => fin t = true ∧ (p t).owner = k := by
  refine LeadsTo.mono (h.granted.holding (s := fun t => (p t).arb = .busy ∧ (p t).owner = k) ?_)
    (fun t ht => ⟨ht.1, ht⟩) fun t ht => ⟨ht.1, ht.2.2⟩
  rintro t ⟨hb, rfl⟩ hf
  exact h.granted_next hb hf

/-- A master that does not own the path keeps its transaction. -/
theorem wants_next (h : Progresses route p acc req start fin) (hk : (p t).owner ≠ k)
    (hw : Wants acc req k t) : Wants acc req k (t + 1) := by
  have hnot : ¬ (p t).Connected k := fun hc => hk hc.2.symm
  obtain ⟨a, ha⟩ := Option.isSome_iff_exists.mp hw
  rw [(h.inv t).quiet k hnot, current_nil] at ha
  have hreq := (h.cycle t).holds k a ha fun hs => hk hs.2.symm
  have hacc : acc (t + 1) k = [] := by
    rw [(h.cycle t).acc_next, if_neg hnot, (h.inv t).quiet k hnot]
  rw [Wants, hacc, current_nil, hreq]
  rfl

/-- The path is granted to a master that asks, or to one with a lower number. -/
theorem grants (h : Progresses route p acc req start fin) (ha : (p t).arb = .idle)
    (hw : Wants acc req k t) :
    ((p (t + 1)).arb = .busy ∧ (p (t + 1)).owner = k) ∨ ∃ j < k, Wants acc req j t := by
  have hquiet : ∀ j, acc t j = [] := fun j =>
    (h.inv t).quiet j (not_connected_of_arb_idle ha j)
  have hask : ∀ j, Wants acc req j t ↔ (req t j).isSome = true := by
    intro j
    rw [Wants, hquiet, current_nil]
  have hk := (hask k).mp hw
  obtain ⟨j, hj⟩ : ∃ j, priorityEncoder (fun k => (req t k).isSome) = j := ⟨_, rfl⟩
  have hle : j ≤ k := hj ▸ priorityEncoder_le hk
  have hset : (req t j).isSome = true := by
    rw [← hj]
    exact @priorityEncoder_set _ (fun k => (req t k).isSome) _ hk
  rcases hle.eq_or_lt with rfl | hlt
  · left
    have hany : ((List.finRange (n + 1)).any fun k => (req t k).isSome) = true :=
      List.any_eq_true.mpr ⟨_, List.mem_finRange _, hk⟩
    rw [h.step]
    simp [BusPath.next, ha, hany, hj]
  · exact .inr ⟨j, hlt, (hask j).mpr hset⟩

/-- **A transaction ends**, unless a master with a lower number has one. -/
theorem served (h : Progresses route p acc req start fin) (k : Fin (n + 1)) :
    LeadsTo (Wants acc req k)
      fun t => (fin t = true ∧ (p t).owner = k) ∨ ∃ j < k, Wants acc req j t := by
  have hidle : LeadsTo (fun t => (p t).arb = .idle ∧ Wants acc req k t)
      fun t => (fin t = true ∧ (p t).owner = k) ∨ ∃ j < k, Wants acc req j t := by
    refine LeadsTo.by_cases (fun t => ∃ j < k, Wants acc req j t)
      (LeadsTo.of_imp fun t ht => .inr ht.2) ?_
    have hgrant : LeadsTo (fun t => ((p t).arb = .idle ∧ Wants acc req k t) ∧
        ¬ ∃ j < k, Wants acc req j t) fun t => (p t).arb = .busy ∧ (p t).owner = k :=
      LeadsTo.of_next fun t ht => (h.grants ht.1.1 ht.1.2).resolve_right ht.2
    exact (hgrant.trans (h.owned k)).mono (fun _ ht => ht) fun _ ht => .inl ht
  have hother : LeadsTo (fun t => (p t).arb = .busy ∧ (p t).owner ≠ k ∧ Wants acc req k t)
      fun t => (p t).arb = .idle ∧ Wants acc req k t := by
    refine LeadsTo.trans (LeadsTo.mono (h.granted.holding
      (s := fun t => (p t).arb = .busy ∧ (p t).owner ≠ k ∧ Wants acc req k t) ?_)
      (fun t ht => ⟨ht.1, ht⟩) fun t ht => ht) (LeadsTo.of_next ?_)
    · rintro t ⟨hb, hk, hw⟩ hf
      obtain ⟨hb', hown⟩ := h.granted_next hb hf
      exact ⟨hb', hown ▸ hk, h.wants_next hk hw⟩
    · rintro t ⟨hf, -, hk, hw⟩
      refine ⟨?_, h.wants_next hk hw⟩
      rw [h.step]
      exact (next_arb_of_fin ((h.cycle t).fin_open hf).1 hf).1
  refine LeadsTo.by_cases (fun t => (p t).arb = .busy) ?_ ?_
  · refine LeadsTo.by_cases (fun t => (p t).owner = k) ?_ ?_
    · exact (h.owned k).mono (fun t ht => ⟨ht.1.2, ht.2⟩) fun t ht => .inl ht
    · exact (hother.trans hidle).mono (fun t ht => ⟨ht.1.2, ht.2, ht.1.1⟩) fun t ht => ht
  · exact hidle.mono (fun t ht => ⟨(state_cases _).resolve_right ht.2, ht.1⟩) fun t ht => ht

/-- The transactions of the first master end. -/
theorem served_first (h : Progresses route p acc req start fin) :
    LeadsTo (Wants acc req 0) fun t => fin t = true ∧ (p t).owner = 0 := by
  refine (h.served 0).mono (fun _ ht => ht) ?_
  rintro t (ht | ⟨j, hj, -⟩)
  · exact ht
  · exact absurd hj (Fin.not_lt_zero j)

end Progresses

end BusPath

end Bailuwan
