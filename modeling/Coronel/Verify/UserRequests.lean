import Coronel.Verify.UserRuns

/-!
# Requests on a user heap

What a client gets for a call of any 64-bit size. `malloc` and `calloc` refuse more than 2 GB before
they cut the size to 32 bits, `realloc` cuts it first: a size from `2^32 - 4095` on may come out
small enough for the block that is already there.
-/

namespace Coronel

open Theory Theory.Bytes

namespace UserAllocator

section
variable {W : Nat} {dirs : List Nat} {s s' : Machine} {heap₀ self self' : UserAllocator}
  {bs bs' : List Block} {live : List Nat} {p r n size num newSize : Nat} {b c : Block} {call : Call}

/-- The block that a request of `size` bytes was given. -/
theorem Handed.exists_block {r : Nat × UserAllocator} (h : Handed self [] bs bs' size r s s')
    (h0 : r.1 ≠ 0) : ∃ c ∈ used bs', r.1 = c.addr + 24 ∧ size ≤ c.size := by
  obtain ⟨c, hr, hk, hperm⟩ := h.served.exists_block h0
  have := (roundSize_eq (h.small h0)).2.1
  exact ⟨c, hperm.symm.subset List.mem_cons_self, hr, by omega⟩

end
end UserAllocator
end Coronel
