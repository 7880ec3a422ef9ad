/-
# Requests wait for their handshakes

A port is `Steady` in a cycle if what its master offers on AR, AW or W and the slave does
not take is offered again in the next cycle, with the same payload.  The interconnect
hands this property on from the masters to the slaves, as long as no master takes the
response of a transaction that it still requests.

The load and store unit and the instruction cache are such masters, so that the external
port of the core is steady in every run, whatever the slave does (`master_steady`).
-/
import Bailuwan.CoreBus

namespace Bailuwan

open Synchronous AXI4

/-! ## Ports -/

/-- What is offered to a slave that is not ready stays, `o'` being what the master drives
in the next cycle. -/
structure AXI4.Steady (o : Out) (i : In) (o' : Out) : Prop where
  ar : o.ar.valid = true → i.arReady = false → o'.ar = o.ar
  aw : o.aw.valid = true → i.awReady = false → o'.aw = o.aw
  w : o.w.valid = true → i.wReady = false → o'.w = o.w

/-- A master takes no response while it offers an address or data. -/
structure AXI4.Patient (o : Out) : Prop where
  ar : o.ar.valid = true → o.rReady = false
  aw : o.aw.valid = true → o.bReady = false
  w : o.w.valid = true → o.bReady = false

/-! ## The interconnect -/

namespace Interconnect

variable {n m : ℕ} {slavesMap : SlavesMap m} {s : Interconnect n m} {i i' : BusIn n m}

/-- An open read path stays while its owner is not ready for data. -/
theorem readPath_stays (ho : s.readPath.Open) (hr : (s.readOwner i).rReady = false) :
    (s.next slavesMap i).readPath = s.readPath := by
  rw [readPath_next]
  exact BusPath.next_of_open ho (by simp [readFin, rLastFire, rFire, hr])

/-- A write path that is open stays until its response. -/
theorem writePath_stays (ho : s.writePath.Open) (hb : (s.writeOwner i).bReady = false) :
    (s.next slavesMap i).writePath = s.writePath := by
  rw [writePath_next]
  exact BusPath.next_of_open ho (by simp [writeFin, bFire, hb])

/-- A slave that is asked for a read is reached. -/
theorem reaches_of_arValid {j : Fin (m + 1)} (h : (s.slaveOut i j).ar.valid = true) :
    s.readPath.Reaches j := by
  by_contra hj
  rw [(slaveOut_read_of_not_reaches hj).1] at h
  exact absurd h (by decide)

/-- A slave that is asked for a write is reached. -/
theorem reaches_of_awValid {j : Fin (m + 1)} (h : (s.slaveOut i j).aw.valid = true) :
    s.writePath.Reaches j := by
  by_contra hj
  rw [(slaveOut_write_of_not_reaches hj).1] at h
  exact absurd h (by decide)

/-- A slave that is sent data is reached. -/
theorem reaches_of_wValid {j : Fin (m + 1)} (h : (s.slaveOut i j).w.valid = true) :
    s.writePath.Reaches j := by
  by_contra hj
  rw [(slaveOut_write_of_not_reaches hj).2.1] at h
  exact absurd h (by decide)

/-- The port keeps the owner it had. -/
theorem slaveOut_ar_of_path {j : Fin (m + 1)} (hj : s.readPath.Reaches j)
    (hstay : (s.next slavesMap i).readPath = s.readPath) :
    ((s.next slavesMap i).slaveOut i' j).ar = (i'.masters s.arbiter.rOwnerId).ar := by
  have howner : (s.next slavesMap i).arbiter.rOwnerId = s.arbiter.rOwnerId :=
    congrArg BusPath.owner hstay
  rw [← hstay] at hj
  rw [(slaveOut_read_of_reaches hj).1, readOwner, howner]

/-- What a slave is sent is what the owner sends, while the path stays. -/
theorem slaveOut_aw_w_of_path {j : Fin (m + 1)} (hj : s.writePath.Reaches j)
    (hstay : (s.next slavesMap i).writePath = s.writePath) :
    ((s.next slavesMap i).slaveOut i' j).aw = (i'.masters s.arbiter.wOwnerId).aw ∧
      ((s.next slavesMap i).slaveOut i' j).w = (i'.masters s.arbiter.wOwnerId).w := by
  have howner : (s.next slavesMap i).arbiter.wOwnerId = s.arbiter.wOwnerId :=
    congrArg BusPath.owner hstay
  rw [← hstay] at hj
  rw [(slaveOut_write_of_reaches hj).1, (slaveOut_write_of_reaches hj).2.1, writeOwner, howner]
  exact ⟨rfl, rfl⟩

/-- **The interconnect hands steadiness on.** -/
theorem slaveOut_steady (hsteady : ∀ k, Steady (i.masters k) (s.masterIn i k) (i'.masters k))
    (hpatient : ∀ k, Patient (i.masters k)) (j : Fin (m + 1)) :
    Steady (s.slaveOut i j) (s.slaveIn i j) ((s.next slavesMap i).slaveOut i' j) where
  ar hv hn := by
    -- an offered address keeps the path open, so the same master stays connected
    have hj := reaches_of_arValid hv
    have hport : s.slaveIn i j = s.readPort i := congrArg (s.slaveIn i) hj.2
    have hready := (masterIn_read_of_connected (i := i) (s.readPath.connected_owner.mpr hj.1)).1
    rw [← hport, hn] at hready
    have hout := (slaveOut_read_of_reaches (i := i) hj).1
    rw [hout] at hv ⊢
    rw [slaveOut_ar_of_path hj (readPath_stays hj.1 ((hpatient _).ar hv))]
    exact (hsteady _).ar hv hready
  aw hv hn := by
    have hj := reaches_of_awValid hv
    have hport : s.slaveIn i j = s.writePort i := congrArg (s.slaveIn i) hj.2
    have hready := (masterIn_write_of_connected (i := i) (s.writePath.connected_owner.mpr hj.1)).1
    rw [← hport, hn] at hready
    have hout := (slaveOut_write_of_reaches (i := i) hj).1
    rw [hout] at hv ⊢
    rw [(slaveOut_aw_w_of_path hj (writePath_stays hj.1 ((hpatient _).aw hv))).1]
    exact (hsteady _).aw hv hready
  w hv hn := by
    have hj := reaches_of_wValid hv
    have hport : s.slaveIn i j = s.writePort i := congrArg (s.slaveIn i) hj.2
    have hready :=
      (masterIn_write_of_connected (i := i) (s.writePath.connected_owner.mpr hj.1)).2.1
    rw [← hport, hn] at hready
    have hout := (slaveOut_write_of_reaches (i := i) hj).2.1
    rw [hout] at hv ⊢
    rw [(slaveOut_aw_w_of_path hj (writePath_stays hj.1 ((hpatient _).w hv))).2]
    exact (hsteady _).w hv hready

end Interconnect

/-! ## The masters of the core -/

/-- The unit takes data and responses in states of their own. -/
theorem LSU.memOut_patient (u : LSU) (x : Valid EXUOut) : Patient (u.memOut x) := by
  constructor <;> cases hst : u.state <;> simp [memOut, hst]

/-- The cache keeps what it asks for until it is taken. -/
theorem ICache.memOut_patient {α : Type*} (k : ICache α) : Patient k.memOut := by
  constructor <;> cases hst : k.state <;> simp [memOut, hst]

namespace Core

variable {c : Core} {io : In}

/-- A flush finds the load and store unit without a request, so its requests stay. -/
theorem lsu_steady : Steady (c.masters 0) (c.lsuMem io) ((c.next io).masters 0) := by
  have hbits : Accesses c → (c.next io).lsuIn.bits = c.lsuIn.bits := Accesses.next_lsuIn
  simp only [Accesses] at hbits
  constructor <;> intro hv hn <;>
    simp only [masters, LSU.memOut, Matrix.cons_val_zero, Bool.or_eq_true,
      decide_eq_true_eq] at hv ⊢
  · have hb := hbits (by simp [hv])
    simp [next_lsu_state, LSU.nextState, hv, arFire, LSU.memOut, hn, hb, LSU.loadSize, LSU.reqOp]
  · have hb := hbits (by simp [hv])
    simp [next_lsu_state, LSU.nextState, hv, awFire, LSU.memOut, hn, hb, LSU.storeSize, LSU.reqOp]
  · have hb := hbits (by rcases hv with hv | hv <;> simp [hv])
    have hstay : (c.next io).lsu.state = .wAddr ∨ (c.next io).lsu.state = .wData := by
      rw [next_lsu_state]
      rcases hv with hv | hv
      · cases ha : (c.lsuMem io).awReady <;>
          simp [LSU.nextState, hv, awFire, wFire, LSU.memOut, hn, ha]
      · simp [LSU.nextState, hv, wFire, LSU.memOut, hn]
    rw [hb]
    rcases hv with hv | hv <;> rcases hstay with hs | hs <;> simp [hv, hs]

/-- A kill or a flush leaves the fill of the cache alone. -/
theorem cache_steady : Steady (c.masters 1) (c.ifuMem io) ((c.next io).masters 1) where
  ar hv hn := by
    have hst : c.ifu.icache.state = .fillAddr := by simpa [masters, IFU.memOut] using hv
    have hstay : (c.next io).ifu.icache.state = .fillAddr := by
      rw [next_icache, ICache.next_state_of_fillAddr hst, ← cache_arFire]
      simp [arFire, hn]
    have hbits := next_cache_arBits (i := io) (show c.ifu.icache.state ≠ .idle by simp [hst])
    simp only [masters, IFU.memOut, Matrix.cons_val_one, ICache.memOut] at hbits ⊢
    rw [hst, hstay, hbits]
  aw hv := by simp [masters, IFU.memOut, ICache.memOut] at hv
  w hv := by simp [masters, IFU.memOut, ICache.memOut] at hv

/-- **The external port is steady**: whatever happens in the core and whatever the slave
does, a request that is not taken is repeated. -/
theorem master_steady (r : machine.Run) (t : ℕ) : Steady ((r.st t).master (r.inp t)) (r.inp t)
    ((r.st (t + 1)).master (r.inp (t + 1))) := by
  have hmasters : ∀ k : Fin 2, Steady ((r.st t).masters k)
      ((r.st t).bus.masterIn ((r.st t).busIn (r.inp t)) k) ((r.st (t + 1)).masters k) := by
    rw [r.step t]
    exact Fin.forall_fin_two.mpr ⟨lsu_steady, cache_steady⟩
  have hpatient : ∀ k : Fin 2, Patient ((r.st t).masters k) :=
    Fin.forall_fin_two.mpr ⟨LSU.memOut_patient _ _, ICache.memOut_patient _⟩
  have h : Steady ((r.st t).bus.slaveOut ((r.st t).busIn (r.inp t)) 0)
      ((r.st t).bus.slaveIn ((r.st t).busIn (r.inp t)) 0)
      (((r.st t).bus.next slavesMap ((r.st t).busIn (r.inp t))).slaveOut
        ((r.st (t + 1)).busIn (r.inp (t + 1))) 0) :=
    Interconnect.slaveOut_steady hmasters hpatient 0
  have hbus : (r.st (t + 1)).bus =
      (r.st t).bus.next slavesMap ((r.st t).busIn (r.inp t)) := by
    rw [r.step t]
    rfl
  rw [← hbus] at h
  exact h

end Core

end Bailuwan
