import Mathlib.Tactic

/-!
# Fixed-width naturals as byte strings

A natural number written on `k` bytes, least significant byte first (`leBytes`)
or most significant byte first (`beBytes`), and read back (`leNat`, `beNat`).
On top of that, the two byte orders of a machine:

* `ByteOrder.store o k n`: the `k` bytes that a machine of byte order `o` keeps
  in memory for `n`, and `ByteOrder.load`, which reads them back;
* `ByteOrder.toNet o k n`: the `k`-byte number whose representation in the
  memory of that machine is the big-endian one of `n`.

Results: reading undoes writing modulo `256 ^ k` (`leNat_leBytes`), writing
undoes reading (`leBytes_leNat`), a longer number is written by parts
(`leBytes_add`, `beBytes_add`), and `store_toNet` / `toNet_load` tie the two
byte orders to the big-endian one.
-/

namespace Lib

/-! ## Least significant byte first -/

/-- The `k` bytes of `n`, least significant first. -/
def leBytes : Nat → Nat → List UInt8
  | 0, _ => []
  | k + 1, n => UInt8.ofNat n :: leBytes k (n / 256)

/-- The number whose bytes, least significant first, are given. -/
def leNat : List UInt8 → Nat
  | [] => 0
  | b :: bs => b.toNat + 256 * leNat bs

@[simp] theorem length_leBytes (k n : Nat) : (leBytes k n).length = k := by
  induction k generalizing n with
  | zero => rfl
  | succ k ih => simp [leBytes, ih]

/-- Reading undoes writing, up to the bits that `k` bytes cannot hold. -/
theorem leNat_leBytes (k n : Nat) : leNat (leBytes k n) = n % 256 ^ k := by
  induction k generalizing n with
  | zero => simp [leBytes, leNat, Nat.mod_one]
  | succ k ih =>
    have hsplit : n % (256 * 256 ^ k) = n % 256 + 256 * (n / 256 % 256 ^ k) := Nat.mod_mul
    rw [leBytes, leNat, ih, UInt8.toNat_ofNat', pow_succ' 256 k, hsplit]

/-- Writing undoes reading. -/
theorem leBytes_leNat (bs : List UInt8) : leBytes bs.length (leNat bs) = bs := by
  induction bs with
  | nil => rfl
  | cons b bs ih =>
    have hb : b.toNat < 256 := b.toNat_lt
    rw [List.length_cons, leBytes, leNat]
    congr 1
    · rw [← UInt8.toNat_inj, UInt8.toNat_ofNat', Nat.add_mul_mod_self_left, Nat.mod_eq_of_lt hb]
    · rw [Nat.add_mul_div_left _ _ (by decide), Nat.div_eq_of_lt hb, Nat.zero_add, ih]

theorem leNat_lt (bs : List UInt8) : leNat bs < 256 ^ bs.length := by
  induction bs with
  | nil => simp [leNat]
  | cons b bs ih =>
    have hb : b.toNat < 256 := b.toNat_lt
    rw [leNat, List.length_cons, pow_succ]
    omega

theorem leBytes_add (j k n : Nat) :
    leBytes (j + k) n = leBytes j n ++ leBytes k (n / 256 ^ j) := by
  induction j generalizing n with
  | zero => simp [leBytes]
  | succ j ih =>
    rw [Nat.succ_add, leBytes, leBytes, ih, Nat.div_div_eq_div_mul, ← pow_succ',
      List.cons_append]

theorem leBytes_mod (k n : Nat) : leBytes k (n % 256 ^ k) = leBytes k n := by
  have h := leBytes_leNat (leBytes k n)
  rwa [length_leBytes, leNat_leBytes] at h

/-! ## Most significant byte first -/

/-- The `k` bytes of `n`, most significant first. -/
def beBytes (k n : Nat) : List UInt8 := (leBytes k n).reverse

/-- The number whose bytes, most significant first, are given. -/
def beNat (bs : List UInt8) : Nat := leNat bs.reverse

@[simp] theorem length_beBytes (k n : Nat) : (beBytes k n).length = k := by
  simp [beBytes]

theorem beNat_beBytes (k n : Nat) : beNat (beBytes k n) = n % 256 ^ k := by
  rw [beNat, beBytes, List.reverse_reverse, leNat_leBytes]

theorem beNat_beBytes_of_lt {k n : Nat} (h : n < 256 ^ k) : beNat (beBytes k n) = n := by
  rw [beNat_beBytes, Nat.mod_eq_of_lt h]

theorem beBytes_beNat (bs : List UInt8) : beBytes bs.length (beNat bs) = bs := by
  have h := leBytes_leNat bs.reverse
  rw [List.length_reverse] at h
  rw [beBytes, beNat, h, List.reverse_reverse]

theorem beNat_lt (bs : List UInt8) : beNat bs < 256 ^ bs.length := by
  simpa [beNat] using leNat_lt bs.reverse

theorem beBytes_add (j k n : Nat) :
    beBytes (j + k) n = beBytes k (n / 256 ^ j) ++ beBytes j n := by
  rw [beBytes, leBytes_add, List.reverse_append, beBytes, beBytes]

theorem beBytes_mod (k n : Nat) : beBytes k (n % 256 ^ k) = beBytes k n := by
  rw [beBytes, leBytes_mod, beBytes]

/-! ## The byte order of a machine -/

/-- The order in which a machine keeps the bytes of a number. -/
inductive ByteOrder
  | little
  | big
deriving DecidableEq, Repr

/-- The `k` bytes that keep `n` in the memory of a machine. -/
def ByteOrder.store : ByteOrder → Nat → Nat → List UInt8
  | .little => leBytes
  | .big => beBytes

/-- The number that a machine reads from the given bytes of its memory. -/
def ByteOrder.load : ByteOrder → List UInt8 → Nat
  | .little => leNat
  | .big => beNat

/-- The `k` bytes of a number, in the opposite order. -/
def byteSwap (k n : Nat) : Nat := leNat (beBytes k n)

/-- The number that a machine must keep so that its memory holds the big-endian
bytes of `n`: the swapped number on a little-endian machine, `n` itself on a
big-endian one. -/
def ByteOrder.toNet : ByteOrder → Nat → Nat → Nat
  | .little, k, n => byteSwap k n
  | .big, _, n => n

@[simp] theorem length_store (o : ByteOrder) (k n : Nat) : (o.store k n).length = k := by
  cases o <;> simp [ByteOrder.store]

theorem load_store (o : ByteOrder) (k n : Nat) : o.load (o.store k n) = n % 256 ^ k := by
  cases o
  · exact leNat_leBytes k n
  · exact beNat_beBytes k n

theorem store_load (o : ByteOrder) {bs : List UInt8} {k : Nat} (h : bs.length = k) :
    o.store k (o.load bs) = bs := by
  subst h
  cases o
  · exact leBytes_leNat bs
  · exact beBytes_beNat bs

theorem load_lt (o : ByteOrder) (bs : List UInt8) : o.load bs < 256 ^ bs.length := by
  cases o
  · exact leNat_lt bs
  · exact beNat_lt bs

theorem byteSwap_lt (k n : Nat) : byteSwap k n < 256 ^ k := by
  simpa [byteSwap] using leNat_lt (beBytes k n)

theorem leBytes_byteSwap (k n : Nat) : leBytes k (byteSwap k n) = beBytes k n := by
  have h := leBytes_leNat (beBytes k n)
  rwa [length_beBytes] at h

theorem toNet_lt (o : ByteOrder) {k n : Nat} (h : n < 256 ^ k) : o.toNet k n < 256 ^ k := by
  cases o
  · exact byteSwap_lt k n
  · exact h

/-- On either machine the memory of `toNet` holds the big-endian bytes. -/
theorem store_toNet (o : ByteOrder) (k n : Nat) : o.store k (o.toNet k n) = beBytes k n := by
  cases o
  · exact leBytes_byteSwap k n
  · rfl

/-- On either machine `toNet` of the number kept by big-endian bytes is the
number those bytes stand for. -/
theorem toNet_load (o : ByteOrder) (bs : List UInt8) :
    o.toNet bs.length (o.load bs) = beNat bs := by
  cases o
  · rw [ByteOrder.toNet, ByteOrder.load, byteSwap, beBytes, leBytes_leNat, beNat]
  · rfl

theorem toNet_toNet (o : ByteOrder) {k n : Nat} (hn : n < 256 ^ k) :
    o.toNet k (o.toNet k n) = n := by
  have h := toNet_load o (o.store k (o.toNet k n))
  rwa [load_store, length_store, Nat.mod_eq_of_lt (toNet_lt o hn), store_toNet,
    beNat_beBytes_of_lt hn] at h

end Lib
