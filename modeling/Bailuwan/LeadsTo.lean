/-
# Progress

Properties of what must happen, for predicates on time: `LeadsTo p q` says that from every
moment at which `p` holds, `q` holds then or later, and `Recurs q` that `q` holds again and
again.

* `LeadsTo.trans`, `LeadsTo.or` and `LeadsTo.by_cases` chain and combine such properties;
* `LeadsTo.holding` adds to both sides what is kept until the event happens;
* `LeadsTo.measure` is the induction rule: a quantity cannot decrease forever;
* `LeadsTo.meets` is the rule of weak fairness: what is kept until an event happens meets the
  event, if the event is not refused forever.
-/
import Bailuwan.Synchronous

namespace Synchronous

variable {p q r s e : ℕ → Prop}

/-- `q` holds again and again. -/
def Recurs (q : ℕ → Prop) : Prop := ∀ t, ∃ u, t ≤ u ∧ q u

/-- From every moment at which `p` holds, `q` holds then or later. -/
def LeadsTo (p q : ℕ → Prop) : Prop := ∀ t, p t → ∃ u, t ≤ u ∧ q u

/-- What follows from what recurs does so too. -/
theorem Recurs.mono (h : Recurs p) (himp : ∀ t, p t → q t) : Recurs q := by
  intro t
  obtain ⟨u, htu, hu⟩ := h t
  exact ⟨u, htu, himp u hu⟩

/-- What always holds recurs. -/
theorem Recurs.of_forall (h : ∀ t, p t) : Recurs p := fun t => ⟨t, le_rfl, h t⟩

namespace LeadsTo

/-- What follows at once is reached. -/
theorem of_imp (h : ∀ t, p t → q t) : LeadsTo p q := fun t ht => ⟨t, le_rfl, h t ht⟩

/-- What follows in the next step is reached. -/
theorem of_next (h : ∀ t, p t → q (t + 1)) : LeadsTo p q :=
  fun t ht => ⟨t + 1, Nat.le_succ t, h t ht⟩

/-- A stronger condition leads to a weaker one. -/
theorem mono (h : LeadsTo p q) (hp : ∀ t, r t → p t) (hq : ∀ t, q t → s t) : LeadsTo r s := by
  intro t ht
  obtain ⟨u, htu, hu⟩ := h t (hp t ht)
  exact ⟨u, htu, hq u hu⟩

/-- What leads to something leads to what that leads to. -/
theorem trans (h : LeadsTo p q) (h' : LeadsTo q r) : LeadsTo p r := by
  intro t ht
  obtain ⟨u, htu, hu⟩ := h t ht
  obtain ⟨v, huv, hv⟩ := h' u hu
  exact ⟨v, htu.trans huv, hv⟩

/-- Two conditions that lead to one lead to it together. -/
theorem or (h : LeadsTo p r) (h' : LeadsTo q r) : LeadsTo (fun t => p t ∨ q t) r := by
  rintro t (ht | ht)
  · exact h t ht
  · exact h' t ht

/-- A case split at the beginning. -/
theorem by_cases (c : ℕ → Prop) (h : LeadsTo (fun t => p t ∧ c t) q)
    (h' : LeadsTo (fun t => p t ∧ ¬ c t) q) : LeadsTo p q := by
  intro t ht
  by_cases hc : c t
  · exact h t ⟨ht, hc⟩
  · exact h' t ⟨ht, hc⟩

/-- What leads to `q` now need not be looked at. -/
theorem except (h : LeadsTo s q) (h' : LeadsTo (fun t => p t ∧ ¬ s t) q) : LeadsTo p q :=
  by_cases s (h.mono (fun _ ht => ht.2) fun _ ht => ht) h'

/-- What is kept until `e` happens still holds when it does. -/
theorem holding (h : LeadsTo p e) (hkeep : ∀ t, s t → ¬ e t → s (t + 1)) :
    LeadsTo (fun t => p t ∧ s t) fun t => e t ∧ s t := by
  rintro t ⟨hp, hs⟩
  obtain ⟨u, htu, hsu, heu, -⟩ := exists_first_at hs (fun u _ => hkeep u) (h t hp)
  exact ⟨u, htu, heu, hsu⟩

/-- **The induction rule**: what leads to `q` or to a smaller value of `m` leads to `q`. -/
theorem measure (m : ℕ → ℕ)
    (h : ∀ n, LeadsTo (fun t => p t ∧ m t = n) fun t => q t ∨ p t ∧ m t < n) : LeadsTo p q := by
  have hall : ∀ n, LeadsTo (fun t => p t ∧ m t = n) q := by
    intro n
    induction n using Nat.strong_induction_on with
    | _ n ih =>
        intro t ht
        obtain ⟨u, htu, hu | ⟨hu, hlt⟩⟩ := h n t ht
        · exact ⟨u, htu, hu⟩
        · obtain ⟨v, huv, hv⟩ := ih (m u) hlt u ⟨hu, rfl⟩
          exact ⟨v, htu.trans huv, hv⟩
  exact fun t ht => hall (m t) t ⟨ht, rfl⟩

/-- **Weak fairness**: what is kept until an event happens meets the event, if the event is not
refused forever. -/
theorem meets (hfair : Recurs fun t => p t → e t) (hkeep : ∀ t, p t → ¬ e t → p (t + 1)) :
    LeadsTo p fun t => p t ∧ e t := by
  intro t ht
  obtain ⟨u, htu, hu, he, -⟩ := exists_first_at (e := fun u => p u → e u) ht
    (fun u _ hu hno => hkeep u hu fun he => hno fun _ => he) (hfair t)
  exact ⟨u, htu, hu, he hu⟩

end LeadsTo

end Synchronous
