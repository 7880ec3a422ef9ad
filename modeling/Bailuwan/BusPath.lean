/-
# Two arbitration stages in series

The arbiter and the crossbar each keep one pair of registers per direction, a state
and an owner.  A `BusPath` is the four registers of one direction: whose request the
first stage follows and which port the second stage has opened for it.  Reads and
writes of the interconnect are two instances of this one machine.

* `BusPath.Inv` is the invariant that ties the stages to the outstanding
  transactions, kept by every step that follows the protocol (`BusPath.Inv.next`);
* `BusPath.Mirrors` says that what the ports see is what the owner has done;
* `BusPath.carries` turns both into a bijection of the handshakes of one cycle.
-/
import Bailuwan.AXI4CrossBar

namespace Bailuwan

/-- The registers of one direction: the state and the owner of either stage. -/
@[ext]
structure BusPath (n m : ℕ) where
  arb : BusState
  owner : Fin (n + 1)
  xbar : BusState
  port : Fin (m + 1)

namespace BusPath

variable {n m : ℕ} {A β : Type*} (p : BusPath n m)

/-- Both stages are busy: the owner is connected to the port. -/
def Open : Prop := p.arb = .busy ∧ p.xbar = .busy

/-- Master `k` is connected. -/
def Connected (k : Fin (n + 1)) : Prop := p.Open ∧ k = p.owner

/-- Port `j` is connected. -/
def Reaches (j : Fin (m + 1)) : Prop := p.Open ∧ j = p.port

instance : Decidable p.Open := inferInstanceAs (Decidable (_ ∧ _))
instance (k : Fin (n + 1)) : Decidable (p.Connected k) := inferInstanceAs (Decidable (_ ∧ _))
instance (j : Fin (m + 1)) : Decidable (p.Reaches j) := inferInstanceAs (Decidable (_ ∧ _))

@[simp] theorem connected_owner : p.Connected p.owner ↔ p.Open := by simp [Connected]
@[simp] theorem reaches_port : p.Reaches p.port ↔ p.Open := by simp [Reaches]

/-- The request the second stage sees. -/
def seen (req : Fin (n + 1) → Option A) : Option A :=
  if p.arb = .busy then req p.owner else none

/-- The clock edge, given the requests of the masters and whether the transaction on
the path ends. -/
def next (route : A → Fin (m + 1)) (req : Fin (n + 1) → Option A) (fin : Bool) :
    BusPath n m where
  arb := match p.arb with
    | .idle => if (List.finRange (n + 1)).any fun k => (req k).isSome then .busy else .idle
    | .busy => if fin then .idle else .busy
  owner := if p.arb = .idle then priorityEncoder fun k => (req k).isSome else p.owner
  xbar := match p.xbar with
    | .idle => if (p.seen req).isSome then .busy else .idle
    | .busy => if fin then .idle else .busy
  port := match p.xbar, p.seen req with
    | .idle, some a => route a
    | _, _ => p.port

/-- A stage is idle or busy. -/
theorem state_cases (b : BusState) : b = .idle ∨ b = .busy := by
  cases b with
  | idle => exact .inl rfl
  | busy => exact .inr rfl

/-! ## What a step does -/

variable {p} {route : A → Fin (m + 1)} {req : Fin (n + 1) → Option A} {fin : Bool}

/-- An open path stays while the transaction goes on. -/
theorem next_of_open (ho : p.Open) (hf : fin = false) : p.next route req fin = p := by
  obtain ⟨arb, owner, xbar, port⟩ := p
  obtain ⟨h1, h2⟩ := ho
  simp only at h1 h2
  subst h1 h2 hf
  rfl

/-- The end of the transaction closes both stages. -/
theorem next_arb_of_fin (ho : p.Open) (hf : fin = true) :
    (p.next route req fin).arb = .idle ∧ (p.next route req fin).xbar = .idle := by
  simp [next, ho.1, ho.2, hf]

/-- The last beat closes the path. -/
theorem not_open_of_fin (ho : p.Open) (hf : fin = true) : ¬ (p.next route req fin).Open := by
  intro h
  have harb := h.1
  rw [(next_arb_of_fin ho hf).1] at harb
  exact absurd harb (by decide)

/-! ## Outstanding transactions -/

/-- The transactions begun and not finished, oldest first, after a cycle. -/
def pendingNext (q : List A) (start : Bool) (a : Option A) (fin : Bool) : List A :=
  (if fin then q.tail else q) ++ if start then a.toList else []

/-- The transaction of a master: the one it has begun, else the one it requests. -/
def current : List A → Option A → Option A
  | [], req => req
  | a :: _, _ => some a

@[simp] theorem current_nil (req : Option A) : current [] req = req := rfl
@[simp] theorem current_cons (a : A) (q : List A) (req : Option A) :
    current (a :: q) req = some a := rfl

/-- A quantity of the masters has its resting value `d` for all that are not connected. -/
def Quiet (p : BusPath n m) (d : β) (v : Fin (n + 1) → β) : Prop :=
  ∀ k, ¬ p.Connected k → v k = d

/-- A quantity that the connected master updates, back to its resting value when the
transaction ends, stays quiet. -/
theorem Quiet.next {d : β} {v v' : Fin (n + 1) → β} (h : Quiet p d v) (upd : β → β)
    (hv : ∀ k, v' k = if p.Connected k then upd (v k) else v k)
    (hfin : p.Open → fin = true → upd (v p.owner) = d) :
    Quiet (p.next route req fin) d v' := by
  intro k hk
  rw [hv]
  split_ifs with hc
  · cases hf : fin with
    | true => rw [hc.2, hfin hc.1 hf]
    | false =>
        rw [hf, next_of_open hc.1 rfl] at hk
        exact absurd hc hk
  · exact h k hc

/-- What port `j` sees of a quantity is what it is for the owner while it is connected,
and the resting value `d` otherwise. -/
structure Mirrors (p : BusPath n m) (d : β) (v : Fin (n + 1) → β) (j : Fin (m + 1)) (s : β) :
    Prop where
  same : p.Reaches j → s = v p.owner
  rest : ¬ p.Reaches j → s = d

/-- A quantity that both ends of the open path update alike stays mirrored. -/
theorem Mirrors.next {d : β} {v v' : Fin (n + 1) → β} {j : Fin (m + 1)} {s s' : β}
    (h : Mirrors p d v j s) (hq : Quiet p d v) (upd : β → β)
    (hv : ∀ k, v' k = if p.Connected k then upd (v k) else v k)
    (hs : s' = if p.Reaches j then upd s else s)
    (hfin : p.Open → fin = true → upd (v p.owner) = d) :
    Mirrors (p.next route req fin) d v' j s' := by
  by_cases ho : p.Open
  · cases hf : fin with
    | false =>
        rw [next_of_open ho rfl]
        constructor
        · intro hj
          rw [hs, if_pos hj, hv, if_pos ⟨ho, rfl⟩, h.same hj]
        · intro hj
          rw [hs, if_neg hj, h.rest hj]
    | true =>
        have hclosed : ¬ (p.next route req true).Reaches j :=
          fun h' => not_open_of_fin ho rfl h'.1
        refine ⟨fun hj => absurd hj hclosed, fun _ => ?_⟩
        rw [hs]
        split_ifs with hj
        · rw [h.same hj, hfin ho hf]
        · exact h.rest hj
  · have hv0 : ∀ k, v' k = d := by
      intro k
      rw [hv, if_neg fun hk => ho hk.1]
      exact hq k fun hk => ho hk.1
    have hs0 : s' = d := by
      rw [hs, if_neg fun hj => ho hj.1]
      exact h.rest fun hj => ho hj.1
    exact ⟨fun _ => hs0.trans (hv0 _).symm, fun _ => hs0⟩

/-! ## The invariant -/

/-- The first stage waits on the second, a master has begun at most one transaction, and
only while it is connected, and the port that is open is the one of the owner's
transaction. -/
structure Inv (route : A → Fin (m + 1)) (p : BusPath n m) (acc : Fin (n + 1) → List A)
    (req : Fin (n + 1) → Option A) : Prop where
  idle : p.arb = .idle → p.xbar = .idle
  short : ∀ k, (acc k).length ≤ 1
  quiet : Quiet p [] acc
  waits : p.arb = .busy → ∃ a, current (acc p.owner) (req p.owner) = some a ∧
    (p.xbar = .busy → route a = p.port)

/-- A cycle of the protocol: a transaction begins on the open path, and only when the
master has no other one; it ends on the open path; a request stays until it begins. -/
structure Cycle (p : BusPath n m) (acc acc' : Fin (n + 1) → List A)
    (req req' : Fin (n + 1) → Option A) (start : Bool) (fin : Bool) : Prop where
  start_open : start = true → p.Open ∧ acc p.owner = []
  fin_open : fin = true → p.Open ∧ acc p.owner ≠ []
  holds : ∀ k a, req k = some a → ¬ (start = true ∧ k = p.owner) → req' k = some a
  acc_next : ∀ k, acc' k =
    if p.Connected k then pendingNext (acc k) start (req p.owner) fin else acc k

variable {acc acc' : Fin (n + 1) → List A} {req' : Fin (n + 1) → Option A} {start : Bool}

/-- A transaction that ends leaves nothing begun. -/
theorem Inv.pendingNext_fin (h : Inv route p acc req)
    (hc : Cycle p acc acc' req req' start fin) (hf : fin = true) (a : Option A) :
    pendingNext (acc p.owner) start a fin = [] := by
  obtain ⟨-, hne⟩ := hc.fin_open hf
  have hs : start = false := by
    by_contra hs
    exact hne (hc.start_open (by simpa using hs)).2
  have hlen := h.short p.owner
  simp only [pendingNext, hf, hs, if_true, Bool.false_eq_true, if_false, List.append_nil]
  cases hq : acc p.owner with
  | nil => rfl
  | cons b q =>
      rw [hq, List.length_cons] at hlen
      exact List.length_eq_zero_iff.mp (show q.length = 0 by omega)

/-- The transaction of a master stays the same until it ends. -/
theorem current_next (hc : Cycle p acc acc' req req' start fin) (hf : fin = false)
    {k : Fin (n + 1)} {a : A} (h : current (acc k) (req k) = some a) :
    current (acc' k) (req' k) = some a := by
  rw [hc.acc_next]
  cases hq : acc k with
  | cons b q =>
      rw [hq, current_cons] at h
      split_ifs with hk
      · simpa [pendingNext, hf] using h
      · simpa using h
  | nil =>
      rw [hq, current_nil] at h
      by_cases hs : start = true ∧ k = p.owner
      · rw [if_pos ⟨(hc.start_open hs.1).1, hs.2⟩]
        rw [← hs.2, h]
        simp [pendingNext, hs.1, hf]
      · have hreq' := hc.holds k a h hs
        split_ifs with hk
        · have hs' : start = false := by
            by_contra hs'
            exact hs ⟨by simpa using hs', hk.2⟩
          simpa [pendingNext, hs', hf] using hreq'
        · simpa using hreq'

theorem not_connected_of_arb_idle (ha : p.arb = .idle) (k : Fin (n + 1)) : ¬ p.Connected k := by
  intro hk
  have harb := hk.1.1
  rw [ha] at harb
  exact absurd harb (by decide)

theorem not_connected_of_xbar_idle (hx : p.xbar = .idle) (k : Fin (n + 1)) :
    ¬ p.Connected k := by
  intro hk
  have hxbar := hk.1.2
  rw [hx] at hxbar
  exact absurd hxbar (by decide)

/-- A master that is not connected does not begin a transaction. -/
theorem Cycle.not_start (hc : Cycle p acc acc' req req' start fin) {k : Fin (n + 1)}
    (hk : ¬ p.Connected k) : ¬ (start = true ∧ k = p.owner) := by
  rintro ⟨hs, rfl⟩
  exact hk ⟨(hc.start_open hs).1, rfl⟩

/-- The stages become idle together. -/
theorem Inv.idle_next (h : Inv route p acc req) (hc : Cycle p acc acc' req req' start fin)
    (hidle : (p.next route req fin).arb = .idle) : (p.next route req fin).xbar = .idle := by
  rcases state_cases p.arb with ha | ha
  · have hnone : p.seen req = none := by simp [seen, ha]
    simp [BusPath.next, h.idle ha, hnone]
  · have hf : fin = true := by
      by_contra hf
      simp [BusPath.next, ha, hf] at hidle
    exact (next_arb_of_fin (hc.fin_open hf).1 hf).2

/-- A master has at most one transaction outstanding. -/
theorem Inv.short_next (h : Inv route p acc req) (hc : Cycle p acc acc' req req' start fin)
    (k : Fin (n + 1)) : (acc' k).length ≤ 1 := by
  rw [hc.acc_next]
  split_ifs with hk
  · rw [hk.2]
    cases hf : fin with
    | true =>
        have hnil := h.pendingNext_fin hc hf (req p.owner)
        rw [hf] at hnil
        simp [hnil]
    | false =>
        cases hs : start with
        | false => simpa [pendingNext] using h.short p.owner
        | true =>
            rw [(hc.start_open hs).2]
            cases req p.owner <;> simp [pendingNext]
  · exact h.short k

/-- A request has just been granted; the second stage has not seen it yet. -/
theorem Inv.waits_of_grant (h : Inv route p acc req)
    (hc : Cycle p acc acc' req req' start fin) (ha : p.arb = .idle)
    (hbusy : (p.next route req fin).arb = .busy) :
    (∃ a, current (acc' (p.next route req fin).owner) (req' (p.next route req fin).owner) =
      some a) ∧ (p.next route req fin).xbar = .idle := by
  have hany : ∃ k, (req k).isSome = true := by
    by_contra hno
    have : ((List.finRange (n + 1)).any fun k => (req k).isSome) = false := by
      simpa using fun k => not_exists.mp hno k
    simp [BusPath.next, ha, this] at hbusy
  obtain ⟨k, hk⟩ := hany
  have howner : (p.next route req fin).owner = priorityEncoder fun k => (req k).isSome := by
    simp [BusPath.next, ha]
  have hset := @priorityEncoder_set _ (fun k => (req k).isSome) _ hk
  obtain ⟨a, hreq⟩ := Option.isSome_iff_exists.mp hset
  have hclosed := not_connected_of_arb_idle ha
  have hnone : p.seen req = none := by simp [seen, ha]
  refine ⟨⟨a, ?_⟩, by simp [BusPath.next, h.idle ha, hnone]⟩
  rw [howner, hc.acc_next, if_neg (hclosed _), h.quiet _ (hclosed _), current_nil]
  exact hc.holds _ a hreq (hc.not_start (hclosed _))

/-- A request that is granted stays so, and the second stage decodes the request it sees. -/
theorem Inv.waits_of_granted (h : Inv route p acc req)
    (hc : Cycle p acc acc' req req' start fin) (ha : p.arb = .busy) (hf : fin = false) :
    ∃ a, current (acc' (p.next route req fin).owner) (req' (p.next route req fin).owner) =
      some a ∧ ((p.next route req fin).xbar = .busy → route a = (p.next route req fin).port) := by
  have howner : (p.next route req fin).owner = p.owner := by simp [BusPath.next, ha]
  obtain ⟨a, hcur, hroute⟩ := h.waits ha
  refine ⟨a, by rw [howner]; exact current_next hc hf hcur, fun hx => ?_⟩
  rcases state_cases p.xbar with hxb | hxb
  · rw [h.quiet _ (not_connected_of_xbar_idle hxb _), current_nil] at hcur
    simp [BusPath.next, hxb, seen, ha, hcur]
  · simpa [BusPath.next, hxb] using hroute hxb

/-- **The step of the invariant.** -/
theorem Inv.next (h : Inv route p acc req) (hc : Cycle p acc acc' req req' start fin) :
    Inv route (p.next route req fin) acc' req' := by
  refine ⟨h.idle_next hc, h.short_next hc, ?_, fun hbusy => ?_⟩
  · exact h.quiet.next (fun q => pendingNext q start (req p.owner) fin) hc.acc_next
      fun _ hf => h.pendingNext_fin hc hf _
  · rcases state_cases p.arb with ha | ha
    · obtain ⟨⟨a, hcur⟩, hidle⟩ := h.waits_of_grant hc ha hbusy
      refine ⟨a, hcur, fun hx => ?_⟩
      rw [hidle] at hx
      exact absurd hx (by decide)
    · have hf : fin = false := by
        by_contra hf
        simp [BusPath.next, ha, hf] at hbusy
      exact h.waits_of_granted hc ha hf

/-! ## Handshakes -/

/-- The handshakes of a channel at the masters and at the ports in one cycle correspond
one to one, each pair being linked. -/
structure Carries (mfire : Fin (n + 1) → Bool) (sfire : Fin (m + 1) → Bool)
    (link : Fin (n + 1) → Fin (m + 1) → Prop) : Prop where
  delivered : ∀ k, mfire k = true → ∃ j, sfire j = true ∧ link k j
  caused : ∀ j, sfire j = true → ∃ k, mfire k = true ∧ link k j
  oneMaster : ∀ k k', mfire k = true → mfire k' = true → k = k'
  onePort : ∀ j j', sfire j = true → sfire j' = true → j = j'

/-- A channel whose handshakes are those of the open path carries them. -/
theorem carries {mfire : Fin (n + 1) → Bool} {sfire : Fin (m + 1) → Bool}
    {link : Fin (n + 1) → Fin (m + 1) → Prop} {fire : Bool}
    (hm : ∀ k, mfire k = (decide (p.Connected k) && fire))
    (hs : ∀ j, sfire j = (decide (p.Reaches j) && fire))
    (hlink : p.Open → fire = true → link p.owner p.port) : Carries mfire sfire link := by
  have hm' : ∀ k, mfire k = true ↔ p.Connected k ∧ fire = true := fun k => by simp [hm]
  have hs' : ∀ j, sfire j = true ↔ p.Reaches j ∧ fire = true := fun j => by simp [hs]
  constructor
  · intro k hk
    obtain ⟨⟨ho, rfl⟩, hf⟩ := (hm' k).mp hk
    exact ⟨p.port, (hs' _).mpr ⟨⟨ho, rfl⟩, hf⟩, hlink ho hf⟩
  · intro j hj
    obtain ⟨⟨ho, rfl⟩, hf⟩ := (hs' j).mp hj
    exact ⟨p.owner, (hm' _).mpr ⟨⟨ho, rfl⟩, hf⟩, hlink ho hf⟩
  · intro k k' hk hk'
    exact ((hm' k).mp hk).1.2.trans ((hm' k').mp hk').1.2.symm
  · intro j j' hj hj'
    exact ((hs' j).mp hj).1.2.trans ((hs' j').mp hj').1.2.symm

end BusPath

end Bailuwan
