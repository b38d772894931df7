import Mathlib

/-! The address space as bytes. A machine word is eight little-endian bytes;
`storeWord` writes one and `loadWord` reads one. `memcpy` and `memset` are the
arena's byte primitives. Every write has a frame lemma: bytes outside its range are kept. -/
namespace SegMalloc.Memory

/-- The bytes of the 64-bit address space. -/
abbrev Mem := Nat → UInt8

/-- The value of the `k` bytes at `a`, least significant first. -/
def loadBytes (m : Mem) (a : Nat) : Nat → Nat
  | 0 => 0
  | k + 1 => (m a).toNat + 256 * loadBytes m (a + 1) k

/-- Read the word at `a`. -/
def loadWord (m : Mem) (a : Nat) : UInt64 := UInt64.ofNat (loadBytes m a 8)

/-- Write the word `w` at `a`. -/
def storeWord (m : Mem) (a : Nat) (w : UInt64) : Mem := fun x =>
  if a ≤ x ∧ x < a + 8 then UInt8.ofNat (w.toNat / 256 ^ (x - a)) else m x

/-- Modelled from the spec: the arena's `memcpy`, copying `n` bytes from `src` to `dst`. -/
def memcpy (m : Mem) (dst src n : Nat) : Mem := fun x =>
  if dst ≤ x ∧ x < dst + n then m (src + (x - dst)) else m x

/-- Modelled from the spec: the arena's `memset`, writing `c` over `n` bytes at `dst`. -/
def memset (m : Mem) (dst : Nat) (c : UInt8) (n : Nat) : Mem := fun x =>
  if dst ≤ x ∧ x < dst + n then c else m x

/-- Two memories agree on the bytes satisfying `S`. -/
def Agree (S : Nat → Prop) (m m' : Mem) : Prop := ∀ x, S x → m' x = m x

theorem Agree.refl (S : Nat → Prop) (m : Mem) : Agree S m m := fun _ _ => rfl

theorem Agree.trans {S : Nat → Prop} {m₁ m₂ m₃ : Mem} (h₁ : Agree S m₁ m₂) (h₂ : Agree S m₂ m₃) :
    Agree S m₁ m₃ := fun x hx => (h₂ x hx).trans (h₁ x hx)

theorem Agree.mono {S T : Nat → Prop} {m m' : Mem} (h : Agree S m m') (hTS : ∀ x, T x → S x) :
    Agree T m m' := fun x hx => h x (hTS x hx)

theorem uint8_toNat_ofNat (n : Nat) : (UInt8.ofNat n).toNat = n % 256 := by
  show (BitVec.ofNat 8 n).toNat = _
  rw [BitVec.toNat_ofNat]

@[simp] theorem uint64_toNat_ofNat (n : Nat) : (UInt64.ofNat n).toNat = n % 2 ^ 64 := by
  show (BitVec.ofNat 64 n).toNat = _
  rw [BitVec.toNat_ofNat]

theorem uint64_ofNat_toNat (w : UInt64) : UInt64.ofNat w.toNat = w :=
  UInt64.toNat.inj (by rw [uint64_toNat_ofNat, Nat.mod_eq_of_lt (UInt64.toNat_lt w)])

theorem loadBytes_congr {m m' : Mem} {a : Nat} :
    ∀ {k : Nat}, (∀ i, i < k → m' (a + i) = m (a + i)) → loadBytes m' a k = loadBytes m a k
  | 0, _ => rfl
  | k + 1, h => by
    have ht : loadBytes m' (a + 1) k = loadBytes m (a + 1) k :=
      loadBytes_congr fun i hi => by simpa [Nat.add_assoc, Nat.add_comm 1] using h (i + 1) (by omega)
    simp only [loadBytes, ht, show m' a = m a by simpa using h 0 (by omega)]

/-- A word read sees only its own eight bytes. -/
theorem loadWord_congr {m m' : Mem} {a : Nat} (h : ∀ x, a ≤ x → x < a + 8 → m' x = m x) :
    loadWord m' a = loadWord m a := by
  unfold loadWord
  rw [loadBytes_congr fun i hi => h (a + i) (by omega) (by omega)]

theorem loadBytes_storeWord (m : Mem) (a : Nat) (w : UInt64) :
    ∀ {k i : Nat}, i + k ≤ 8 →
      loadBytes (storeWord m a w) (a + i) k = w.toNat / 256 ^ i % 256 ^ k
  | 0, i, _ => by simp [loadBytes, Nat.mod_one]
  | k + 1, i, h => by
    have ih := loadBytes_storeWord m a w (k := k) (i := i + 1) (by omega)
    simp only [loadBytes, Nat.add_assoc, ih]
    simp only [storeWord, show a ≤ a + i ∧ a + i < a + 8 from ⟨by omega, by omega⟩, and_self,
      ite_true, Nat.add_sub_cancel_left, uint8_toNat_ofNat]
    rw [show 256 ^ (k + 1) = 256 * 256 ^ k by ring, Nat.mod_mul, Nat.div_div_eq_div_mul,
      Nat.mul_comm (256 ^ i), Nat.pow_succ']

@[simp] theorem loadWord_storeWord_same (m : Mem) (a : Nat) (w : UInt64) :
    loadWord (storeWord m a w) a = w := by
  have h := loadBytes_storeWord m a w (k := 8) (i := 0) (by omega)
  simp only [Nat.add_zero, pow_zero, Nat.div_one] at h
  rw [loadWord, h, Nat.mod_eq_of_lt (by simpa using UInt64.toNat_lt w), uint64_ofNat_toNat]

theorem storeWord_apply_of_lt {m : Mem} {a x : Nat} (w : UInt64) (h : x < a ∨ a + 8 ≤ x) :
    storeWord m a w x = m x := by
  simp only [storeWord]; rw [if_neg (by omega)]

theorem loadWord_storeWord_of_disjoint (m : Mem) {a b : Nat} (w : UInt64)
    (h : a + 8 ≤ b ∨ b + 8 ≤ a) : loadWord (storeWord m a w) b = loadWord m b :=
  loadWord_congr fun x h₁ h₂ => storeWord_apply_of_lt w (by omega)

theorem agree_storeWord {S : Nat → Prop} (m : Mem) {a : Nat} (w : UInt64)
    (h : ∀ x, S x → x < a ∨ a + 8 ≤ x) : Agree S m (storeWord m a w) :=
  fun x hx => storeWord_apply_of_lt w (h x hx)

theorem loadWord_toNat_lt (m : Mem) (a : Nat) : (loadWord m a).toNat < 2 ^ 64 := UInt64.toNat_lt _

end SegMalloc.Memory
