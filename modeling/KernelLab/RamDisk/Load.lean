/-
# `KernelLab.RamDisk.Load` — loading and unloading the RAM-disk drivers

`loads_clean_iff`: for every number of devices and all answers of the calls made at load,

    ramhd_mkreq   loads clean iff the first vmalloc fails, or nothing does
    ramhd_req     loads clean iff nothing fails
    sample_blk    loads clean iff register_blkdev fails, or nothing does

where "clean" is the contract `LoadsClean`: an error leaves nothing behind, and success
means complete devices and an unload that gives back everything exactly once.

So none of the three survives the failure of an allocation, but for `ramhd_mkreq` and the
very first one, before which there is nothing to give back.
-/
import KernelLab.RamDisk.Load.Ramhd
import KernelLab.RamDisk.Load.SampleBlk

namespace KernelLab.RamDisk.Load

theorem loads_clean_iff (N : Nat) (c : Calls (Fin N)) (b : Calls Unit) :
    (LoadsClean (ramhdMkreq c) ↔ FirstVmallocFails c ∨ NoneFails c) ∧
    (LoadsClean (ramhdReq c) ↔ NoneFails c) ∧
    (LoadsClean (sampleBlk b) ↔ b.register_blkdev < 0 ∨ NoneFails b) :=
  ⟨mkreq_clean_iff c, req_clean_iff c, Sample.clean_iff b⟩

/-- Two devices, and memory for the first. -/
def secondVmallocFails : Calls (Fin 2) :=
  ⟨fun i => i.val = 0, fun _ => true, fun _ => true, fun _ => true, 240⟩

def allocDiskFails : Calls Unit :=
  ⟨fun _ => true, fun _ => true, fun _ => true, fun _ => false, 240⟩

/-- The first area is left behind; the second device has no memory and nobody says so;
the load succeeds without a disk, and the unload runs into the freed object. -/
theorem failed_loads_unclean :
    (∃ k, Mkreq.ramhd_init secondVmallocFails = some (- ENOMEM, k) ∧
      k.ledger.live (.data 0) = true) ∧
    (∃ k, Req.ramhd_init secondVmallocFails = some (0, k) ∧ (k.dev 1).data = none) ∧
    (∃ k, Sample.sampleblk_init allocDiskFails = some (0, k) ∧
      Sample.sampleblk_exit k = none) ∧
    ¬ LoadsClean (ramhdMkreq secondVmallocFails) ∧ ¬ LoadsClean (ramhdReq secondVmallocFails) ∧
    ¬ LoadsClean (sampleBlk allocDiskFails) := by
  refine ⟨⟨_, rfl, rfl⟩, ⟨_, rfl, rfl⟩, ⟨_, rfl, rfl⟩, ?_, ?_, ?_⟩
  · rintro ⟨ret, k, hk, herr, -⟩
    obtain ⟨rfl, rfl⟩ := Prod.mk.inj (Option.some.inj hk)
    exact absurd (herr (by decide) (.data 0)) (by decide)
  · rintro ⟨ret, k, hk, -, hok⟩
    obtain ⟨rfl, rfl⟩ := Prod.mk.inj (Option.some.inj hk)
    obtain ⟨⟨-, hcon⟩, -⟩ := hok rfl
    obtain ⟨d, a, q, g, h⟩ := hcon 1
    obtain rfl := Option.some.inj h.rdev
    cases congrArg RAMHD_DEV.data h.dev
  · rintro ⟨ret, k, hk, -, hok⟩
    obtain ⟨rfl, rfl⟩ := Prod.mk.inj (Option.some.inj hk)
    obtain ⟨-, k', hexit, -⟩ := hok rfl
    cases hexit

end KernelLab.RamDisk.Load
