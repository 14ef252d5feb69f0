import Mathlib.Logic.Function.Basic
import Mathlib.Tactic.Ring

/-!
# Little-endian words in a byte memory

A memory is a function `Nat → UInt8`. `load m n a` is the `n`-byte little-endian word at `a`,
`store m n a v` the memory after writing the low `n` bytes of `v` there, `fill` and `copy` the
memories after a `memset` and a `memcpy` between disjoint ranges. Each operation has one lemma for
the range it touches and one for everything else.
-/

namespace Theory.Bytes

/-- A byte memory. -/
abbrev Mem := Nat → UInt8

/-- The `n`-byte little-endian word at `a`. -/
def load (m : Mem) : Nat → Nat → Nat
  | 0, _ => 0
  | n + 1, a => (m a).toNat + 256 * load m n (a + 1)

/-- Write the low `n` bytes of `v` at `a`, lowest byte first. -/
def store (m : Mem) : Nat → Nat → Nat → Mem
  | 0, _, _ => m
  | n + 1, a, v => store (Function.update m a (UInt8.ofNat v)) n (a + 1) (v / 256)

/-- The memory with `n` bytes from `a` set to `v`. -/
def fill (m : Mem) (a n : Nat) (v : UInt8) : Mem :=
  fun b => if a ≤ b ∧ b < a + n then v else m b

/-- The memory with `n` bytes from `dst` set to those at `src`. -/
def copy (m : Mem) (dst src n : Nat) : Mem :=
  fun b => if dst ≤ b ∧ b < dst + n then m (src + (b - dst)) else m b

variable {m m' : Mem} {a b n k v : Nat}

theorem load_congr (h : ∀ i < n, m (a + i) = m' (a + i)) : load m n a = load m' n a := by
  induction n generalizing a with
  | zero => rfl
  | succ n ih =>
    have h0 : m a = m' a := h 0 (by omega)
    have h1 : load m n (a + 1) = load m' n (a + 1) := ih fun i hi => by
      have := h (i + 1) (by omega)
      rwa [show a + (i + 1) = a + 1 + i by omega] at this
    simp only [load, h0, h1]

theorem load_lt : load m n a < 256 ^ n := by
  induction n generalizing a with
  | zero => simp [load]
  | succ n ih =>
    have h1 := ih (a := a + 1)
    have h2 := (m a).toNat_lt
    simp only [load, Nat.pow_succ]
    omega

theorem load_add : load m (n + k) a = load m n a + 256 ^ n * load m k (a + n) := by
  induction n generalizing a with
  | zero => simp [load]
  | succ n ih =>
    rw [Nat.add_right_comm, load, load, ih, Nat.pow_succ, show a + 1 + n = a + (n + 1) by omega]
    ring

theorem store_of_not_mem (h : b < a ∨ a + n ≤ b) : store m n a v b = m b := by
  induction n generalizing m a v with
  | zero => rfl
  | succ n ih =>
    rw [store, ih (by omega), Function.update_of_ne (by omega)]

theorem load_store : load (store m n a v) n a = v % 256 ^ n := by
  induction n generalizing m a v with
  | zero => simp [load, Nat.mod_one]
  | succ n ih =>
    have h0 : store (Function.update m a (UInt8.ofNat v)) n (a + 1) (v / 256) a
        = UInt8.ofNat v := by
      rw [store_of_not_mem (by omega), Function.update_self]
    rw [store, load, h0, ih, UInt8.toNat_ofNat']
    rw [Nat.pow_succ 256 n, Nat.mul_comm (256 ^ n) 256, Nat.mod_mul]

theorem load_store_of_lt (h : v < 256 ^ n) : load (store m n a v) n a = v := by
  rw [load_store, Nat.mod_eq_of_lt h]

theorem load_store_disjoint (h : b + k ≤ a ∨ a + n ≤ b) :
    load (store m n a v) k b = load m k b :=
  load_congr fun i hi => store_of_not_mem (by omega)

/-- Writing what is there changes nothing. -/
theorem store_load : store m n a (load m n a) = m := by
  induction n generalizing a with
  | zero => rfl
  | succ n ih =>
    have hbyte := (m a).toNat_lt
    have h0 : UInt8.ofNat ((m a).toNat + 256 * load m n (a + 1)) = m a := by
      apply UInt8.toNat_inj.mp
      rw [UInt8.toNat_ofNat']
      omega
    have h1 : ((m a).toNat + 256 * load m n (a + 1)) / 256 = load m n (a + 1) := by omega
    rw [load, store, h0, h1, Function.update_eq_self, ih]

theorem load_update_disjoint {x : UInt8} (h : b < a ∨ a + n ≤ b) :
    load (Function.update m b x) n a = load m n a :=
  load_congr fun i hi => Function.update_of_ne (by omega) ..

theorem fill_of_not_mem {v : UInt8} (h : b < a ∨ a + n ≤ b) : fill m a n v b = m b := by
  rw [fill, if_neg (by omega)]

theorem fill_of_mem {v : UInt8} (h1 : a ≤ b) (h2 : b < a + n) : fill m a n v b = v := by
  rw [fill, if_pos ⟨h1, h2⟩]

theorem load_fill_disjoint {v : UInt8} (h : b + k ≤ a ∨ a + n ≤ b) :
    load (fill m a n v) k b = load m k b :=
  load_congr fun i hi => fill_of_not_mem (by omega)

theorem load_fill_zero (h1 : a ≤ b) (h2 : b + k ≤ a + n) : load (fill m a n 0) k b = 0 := by
  induction k generalizing b with
  | zero => rfl
  | succ k ih => rw [load, fill_of_mem h1 (by omega), ih (by omega) (by omega)]; rfl

theorem fill_succ {v : UInt8} : fill m a (n + 1) v = fill (Function.update m a v) (a + 1) n v := by
  funext b
  simp only [fill, Function.update_apply]
  by_cases hb : b = a
  · simp [hb]
  · rw [if_neg hb]
    congr 1
    apply propext
    omega

@[simp] theorem fill_zero {v : UInt8} : fill m a 0 v = m := by
  funext b
  rw [fill_of_not_mem (by omega)]

theorem copy_of_not_mem (h : b < a ∨ a + n ≤ b) : copy m a k n b = m b := by
  rw [copy, if_neg (by omega)]

theorem copy_of_mem (h1 : a ≤ b) (h2 : b < a + n) : copy m a k n b = m (k + (b - a)) := by
  rw [copy, if_pos ⟨h1, h2⟩]

@[simp] theorem copy_zero : copy m a k 0 = m := by
  funext b
  rw [copy_of_not_mem (by omega)]

/-- A byte-by-byte copy from the lowest byte on is `copy` when the destination does not start inside
the source. -/
theorem copy_succ (h : a ≤ k ∨ k + (n + 1) ≤ a) :
    copy m a k (n + 1) = copy (Function.update m a (m k)) (a + 1) (k + 1) n := by
  funext b
  by_cases hb : b = a
  · rw [hb, copy_of_mem (by omega) (by omega), copy_of_not_mem (by omega), Function.update_self]
    congr 1
    omega
  by_cases hin : a ≤ b ∧ b < a + (n + 1)
  · rw [copy_of_mem hin.1 hin.2, copy_of_mem (by omega) (by omega),
      Function.update_of_ne (by omega)]
    congr 1
    omega
  · rw [copy_of_not_mem (by omega), copy_of_not_mem (by omega), Function.update_of_ne hb]

/-- A byte-by-byte copy from the highest byte down is `copy` when the source does not start inside
the destination. -/
theorem copy_succ_last (h : k ≤ a ∨ a + (n + 1) ≤ k) :
    copy m a k (n + 1) = copy (Function.update m (a + n) (m (k + n))) a k n := by
  funext b
  by_cases hb : b = a + n
  · rw [hb, copy_of_mem (by omega) (by omega), copy_of_not_mem (by omega), Function.update_self]
    congr 1
    omega
  by_cases hin : a ≤ b ∧ b < a + n
  · rw [copy_of_mem (by omega) (by omega), copy_of_mem hin.1 hin.2,
      Function.update_of_ne (by omega)]
  · rw [copy_of_not_mem (by omega), copy_of_not_mem (by omega), Function.update_of_ne hb]

/-- The memory whose 8-byte words are given by `f`. -/
def ofWords (f : Nat → Nat) : Mem := fun a => UInt8.ofNat (f (a / 8) / 256 ^ (a % 8))

theorem load_of_bytes (h : ∀ i < n, m (a + i) = UInt8.ofNat (v / 256 ^ i)) :
    load m n a = v % 256 ^ n := by
  induction n generalizing a v with
  | zero => simp [load, Nat.mod_one]
  | succ n ih =>
    have h0 := h 0 (by omega)
    have h1 : load m n (a + 1) = v / 256 % 256 ^ n := ih fun i hi => by
      have := h (i + 1) (by omega)
      rwa [Nat.pow_succ, Nat.mul_comm, ← Nat.div_div_eq_div_mul,
        show a + (i + 1) = a + 1 + i by omega] at this
    rw [Nat.pow_zero, Nat.div_one, Nat.add_zero] at h0
    rw [load, h0, h1, UInt8.toNat_ofNat']
    rw [Nat.pow_succ 256 n, Nat.mul_comm (256 ^ n) 256, Nat.mod_mul]

theorem load_ofWords {f : Nat → Nat} {w : Nat} (h : f w < 2 ^ 64) :
    load (ofWords f) 8 (8 * w) = f w := by
  have : load (ofWords f) 8 (8 * w) = f w % 256 ^ 8 := by
    refine load_of_bytes fun i hi => ?_
    rw [ofWords, show (8 * w + i) / 8 = w by omega, show (8 * w + i) % 8 = i by omega]
  rw [this, Nat.mod_eq_of_lt (by omega)]

end Theory.Bytes
