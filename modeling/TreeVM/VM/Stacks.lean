import TreeVM.VM.Machine

/-!
# The stacks of the machine

What each operation on the parameter stack, the crash stack and the storage buffer leaves behind.

* `Pushed`, `Guarded`, `Grown`: the effects of `push_param`, `push_crash` and `storage_resize`;
* `pushReturn_returns`, `popReturn_spec`: the return frame that a call writes and a return reads.
-/

namespace TreeVM

namespace VM

variable {vm vm' : VM} {a : Alloc}

/-- Nothing but the parameter stack has changed. -/
structure Pushed (vm vm' : VM) (p : Nat) : Prop where
  params : vm'.params = p :: vm.params
  crash : vm'.crash = vm.crash
  storage : vm'.storage = vm.storage
  mem : vm'.mem = vm.mem

theorem pushParam_spec {p : Nat} (h : vm.pushParam a p = some vm') : Pushed vm vm' p := by
  rw [pushParam] at h
  split at h
  · split at h
    · cases h
      exact ⟨rfl, rfl, rfl, rfl⟩
    · cases h
  · cases h
    exact ⟨rfl, rfl, rfl, rfl⟩

/-- Nothing but the crash stack has changed. -/
structure Guarded (vm vm' : VM) (f : CrashFrame) : Prop where
  params : vm'.params = vm.params
  crash : vm'.crash = f :: vm.crash
  storage : vm'.storage = vm.storage
  mem : vm'.mem = vm.mem

theorem pushCrash_spec {pc base paramBase : Nat} (h : vm.pushCrash a pc base paramBase = some vm') :
    Guarded vm vm' ⟨pc, base, vm.storage.len, vm.params.length, paramBase⟩ := by
  simp only [pushCrash] at h
  split at h
  · split at h
    · cases h
      exact ⟨rfl, rfl, rfl, rfl⟩
    · cases h
  · cases h
    exact ⟨rfl, rfl, rfl, rfl⟩

/-- The storage buffer is longer by `amount` bytes, which are zero; the other bytes moved with
it. -/
structure Grown (vm vm' : VM) (amount : Nat) : Prop where
  params : vm'.params = vm.params
  crash : vm'.crash = vm.crash
  len : vm'.storage.len = vm.storage.len + amount
  kept : ∀ k < vm.storage.len, vm'.mem (vm'.storage.data + k) = vm.mem (vm.storage.data + k)
  zero : ∀ k < amount, vm'.mem (vm'.storage.data + vm.storage.len + k) = 0

theorem storageGrow_spec {amount : Nat} (h : vm.storageGrow a amount = some vm') :
    Grown vm vm' amount := by
  -- the bytes behind the old length are cleared, wherever the buffer stands
  have hclear : ∀ v : VM, v.params = vm.params → v.crash = vm.crash →
      (∀ k < vm.storage.len, v.mem (v.storage.data + k) = vm.mem (vm.storage.data + k)) →
      v.storage.len = vm.storage.len →
      Grown vm { v with
        mem := writeBytes v.mem (v.storage.data + v.storage.len) (List.replicate amount 0)
        storage := { v.storage with len := vm.storage.len + amount } } amount := by
    intro v hparams hcrash hkept hlen
    refine ⟨hparams, hcrash, rfl, fun k hk => ?_, fun k hk => ?_⟩
    · exact (writeBytes_before (Nat.add_lt_add_left (hlen ▸ hk) _)).trans (hkept k hk)
    · rw [← hlen]
      exact (writeBytes_getElem (by simpa using hk)).trans (List.getElem_replicate _)
  simp only [storageGrow, Option.bind_eq_bind, Option.pure_def] at h
  split at h
  · obtain ⟨v, hv, hvm'⟩ := Option.bind_eq_some_iff.mp h
    obtain ⟨data, -, rfl⟩ := Option.map_eq_some_iff.mp hv
    cases hvm'
    refine hclear _ rfl rfl (fun k hk => ?_) rfl
    exact (writeBytes_getElem (by simpa using hk)).trans (getElem_readBytes _)
  · cases h
    exact hclear vm rfl rfl (fun _ _ => rfl) rfl

/-- A return frame is read from its bytes alone. -/
theorem savedReturn_congr {offset : Nat} (h : ∀ k < returnSize,
    vm'.mem (vm'.storage.data + offset + k) = vm.mem (vm.storage.data + offset + k)) :
    vm'.savedReturn offset = vm.savedReturn offset := by
  have hread : ∀ d, d + 8 ≤ returnSize →
      readPtr vm'.mem (vm'.storage.data + offset + d) =
        readPtr vm.mem (vm.storage.data + offset + d) := by
    intro d hd
    refine readNat_congr fun k hk => ?_
    rw [Nat.add_assoc _ d k, Nat.add_assoc _ d k]
    exact h _ (by omega)
  have hpc := hread 0 (by decide)
  rw [Nat.add_zero, Nat.add_zero] at hpc
  rw [savedReturn, savedReturn, hpc, hread 8 (by decide), hread 16 (by decide)]

theorem savedReturn_eq {offset : Nat} (hmem : vm'.mem = vm.mem)
    (hdata : vm'.storage.data = vm.storage.data) :
    vm'.savedReturn offset = vm.savedReturn offset := by
  rw [savedReturn, savedReturn, hmem, hdata]

/-- The return frames that end below the old length are kept. -/
theorem Grown.savedReturn {amount : Nat} (h : Grown vm vm' amount) {offset : Nat}
    (hoffset : offset + returnSize ≤ vm.storage.len) :
    vm'.savedReturn offset = vm.savedReturn offset := by
  refine savedReturn_congr fun k hk => ?_
  rw [Nat.add_assoc, Nat.add_assoc]
  exact h.kept _ (by omega)

/-- `storage_push_return` grows the buffer and writes the frame at the old length. -/
theorem pushReturn_spec {r : ReturnFrame} (h : vm.pushReturn a r = some vm') :
    ∃ v, Grown vm v returnSize ∧ vm' = { v with
      mem := writeBytes v.mem (v.storage.data + vm.storage.len)
        (bytesOf 8 r.pc ++ bytesOf 8 r.base ++ bytesOf 8 r.paramBase) } := by
  rw [pushReturn] at h
  obtain ⟨v, hv, rfl⟩ := Option.map_eq_some_iff.mp h
  have hgrown := storageGrow_spec hv
  refine ⟨v, hgrown, ?_⟩
  rw [hgrown.len, show v.storage.data + (vm.storage.len + returnSize) - returnSize =
    v.storage.data + vm.storage.len by omega]

/-- What `storage_push_return` leaves: other return frames are kept, the new one is read back. -/
structure Returns (vm vm' : VM) (r : ReturnFrame) : Prop where
  params : vm'.params = vm.params
  crash : vm'.crash = vm.crash
  len : vm'.storage.len = vm.storage.len + returnSize
  kept : ∀ offset, offset + returnSize ≤ vm.storage.len →
    vm'.savedReturn offset = vm.savedReturn offset
  saved : r.pc < 2 ^ 64 → r.base < 2 ^ 64 → r.paramBase < 2 ^ 64 →
    vm'.savedReturn vm.storage.len = r

theorem pushReturn_returns {r : ReturnFrame} (h : vm.pushReturn a r = some vm') :
    Returns vm vm' r := by
  obtain ⟨v, hgrown, rfl⟩ := pushReturn_spec h
  refine ⟨hgrown.params, hgrown.crash, hgrown.len, fun offset hoffset => ?_, fun hpc hbase hparam => ?_⟩
  · rw [← hgrown.savedReturn hoffset]
    refine savedReturn_congr fun k hk => writeBytes_before ?_
    show v.storage.data + offset + k < v.storage.data + vm.storage.len
    omega
  · have hat := at_writeBytes v.mem (v.storage.data + vm.storage.len)
      (bytesOf 8 r.pc ++ bytesOf 8 r.base ++ bytesOf 8 r.paramBase)
    rw [At.append, At.append] at hat
    simp only [length_bytesOf, List.length_append] at hat
    obtain ⟨⟨h₁, h₂⟩, h₃⟩ := hat
    have hmod : ∀ {n : Nat}, n < 2 ^ 64 → n % 256 ^ 8 = n := fun h => Nat.mod_eq_of_lt h
    rw [savedReturn, readPtr, readPtr, readPtr, h₁.readNat, h₂.readNat, h₃.readNat, hmod hpc,
      hmod hbase, hmod hparam]

/-- `storage_resize` either cuts the buffer or makes it grow. -/
theorem storageResize_spec {amount : Int} (h : vm.storageResize a amount = some vm') :
    (amount < 0 ∧ (-amount).toNat ≤ vm.storage.len ∧
        vm' = { vm with storage := { vm.storage with len := vm.storage.len - (-amount).toNat } }) ∨
      0 ≤ amount ∧ Grown vm vm' amount.toNat := by
  simp only [storageResize] at h
  split at h
  · rename_i hneg
    split at h
    · cases h
    · rename_i hlen
      cases h
      exact .inl ⟨hneg, Nat.le_of_not_lt hlen, rfl⟩
  · rename_i hpos
    exact .inr ⟨Int.not_lt.mp hpos, storageGrow_spec h⟩

/-- Taking the return frame off only changes the length. -/
theorem popReturn_spec {r : ReturnFrame} (h : vm.popReturn = some (r, vm')) :
    returnSize ≤ vm.storage.len ∧ r = vm.savedReturn (vm.storage.len - returnSize) ∧
      vm' = { vm with storage := { vm.storage with len := vm.storage.len - returnSize } } := by
  simp only [popReturn] at h
  split at h
  · cases h
  · rename_i hlen
    obtain ⟨hr, hvm⟩ := Prod.mk.inj (Option.some.inj h)
    exact ⟨Nat.le_of_not_lt hlen, hr.symm, hvm.symm⟩

end VM

/-- Pushing a parameter either succeeds or crashes. -/
theorem State.push_spec (s : State) (a : Alloc) (p : Nat) :
    (∃ vm, VM.Pushed s.vm vm p ∧ s.push a p = .next { s with vm := vm }) ∨
      s.push a p = .fail s .oomParam := by
  rw [State.push]
  split
  · rename_i vm hvm
    exact .inl ⟨vm, VM.pushParam_spec hvm, rfl⟩
  · exact .inr rfl

end TreeVM
