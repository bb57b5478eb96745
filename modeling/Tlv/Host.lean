import Tlv.Lib.Octets

/-!
# The host: byte order, `size_t`, and the network conversions

What the library takes from the machine it runs on. A `Host` has a byte order
and a width of `size_t`; every size and offset of the model is a `Nat` that the
source's operations reduce modulo `Host.szMod`. `htons`, `htonl`, `ntohs` and
`ntohl` are the POSIX functions; `hton64` and `ntoh64` are the library's own
(`tlv.h`), made of two `htonl` calls and a swap of the halves.

Results: `hton64` writes the big-endian bytes on a little-endian host
(`store_hton64_little`) and the two halves in the wrong order on a big-endian
one (`store_hton64_big`); it is its own inverse on both (`ntoh64_hton64`).
-/

namespace Tlv
open Lib

abbrev Byte := UInt8

/-- The width of `size_t`. -/
inductive WordSize
  | w32
  | w64
deriving DecidableEq, Repr

/-- `sizeof(size_t)` in bytes. -/
def WordSize.bytes : WordSize → Nat
  | .w32 => 4
  | .w64 => 8

structure Host where
  order : ByteOrder
  word : WordSize
deriving DecidableEq, Repr

namespace Host

/-- `SIZE_MAX + 1`. -/
def szMod (h : Host) : Nat := 256 ^ h.word.bytes

/-- The value of a computation of type `size_t`. -/
def sz (h : Host) (n : Nat) : Nat := n % h.szMod

/-- `PTRDIFF_MAX`, the largest size of a C object. -/
def ptrdiffMax (h : Host) : Nat := h.szMod / 2 - 1

theorem szMod_w32 {h : Host} (hw : h.word = .w32) : h.szMod = 2 ^ 32 := by
  rw [szMod, hw]
  rfl

theorem szMod_w64 {h : Host} (hw : h.word = .w64) : h.szMod = 2 ^ 64 := by
  rw [szMod, hw]
  rfl

theorem szMod_ge (h : Host) : 2 ^ 32 ≤ h.szMod := by
  cases hw : h.word with
  | w32 => rw [szMod_w32 hw]
  | w64 => rw [szMod_w64 hw]; decide

theorem sz_of_lt {h : Host} {n : Nat} (hn : n < h.szMod) : h.sz n = n := Nat.mod_eq_of_lt hn

/-- `sizeof(DynArrHeader)`: two fields of type `size_t`. -/
def headerSize (h : Host) : Nat := 2 * h.word.bytes

theorem headerSize_lt (h : Host) : h.headerSize < h.szMod := by
  unfold headerSize szMod
  cases h.word <;> decide

/-- `sizeof(Message)`: the tag, padding up to 8, and the union. The union is as
large as a `Buffer`, and at least 8 bytes for the 64-bit members. With 32 bits this is an
ABI that aligns 64-bit members to 8; one that aligns them to 4, as that of i386, has 12
bytes and not 16. -/
def messageSize (h : Host) : Nat := 8 + 2 * h.word.bytes

end Host

/-! ## Network byte order -/

def htons (o : ByteOrder) (x : UInt16) : UInt16 := UInt16.ofNat (o.toNet 2 x.toNat)

def ntohs (o : ByteOrder) (x : UInt16) : UInt16 := UInt16.ofNat (o.toNet 2 x.toNat)

def htonl (o : ByteOrder) (x : UInt32) : UInt32 := UInt32.ofNat (o.toNet 4 x.toNat)

def ntohl (o : ByteOrder) (x : UInt32) : UInt32 := UInt32.ofNat (o.toNet 4 x.toNat)

def hton64 (o : ByteOrder) (val : UInt64) : UInt64 :=
  let hi := htonl o (val >>> 32).toUInt32
  let lo := htonl o (val &&& 0xFFFFFFFF).toUInt32
  (lo.toUInt64 <<< 32) ||| hi.toUInt64

/-- "The operation is its own inverse." -/
def ntoh64 (o : ByteOrder) (val : UInt64) : UInt64 := hton64 o val

/-- The upper half of a 64-bit number. -/
def hiHalf (n : Nat) : Nat := n / 2 ^ 32

/-- The lower half of a 64-bit number. -/
def loHalf (n : Nat) : Nat := n % 2 ^ 32

theorem toNat_htons (o : ByteOrder) (x : UInt16) : (htons o x).toNat = o.toNet 2 x.toNat := by
  have hx : o.toNet 2 x.toNat < 2 ^ 16 := toNet_lt o x.toNat_lt
  rw [htons, UInt16.toNat_ofNat', Nat.mod_eq_of_lt hx]

theorem toNat_htonl (o : ByteOrder) (x : UInt32) : (htonl o x).toNat = o.toNet 4 x.toNat := by
  have hx : o.toNet 4 x.toNat < 2 ^ 32 := toNet_lt o x.toNat_lt
  rw [htonl, UInt32.toNat_ofNat', Nat.mod_eq_of_lt hx]

theorem hiHalf_lt {n : Nat} (hn : n < 2 ^ 64) : hiHalf n < 2 ^ 32 := by
  unfold hiHalf
  omega

theorem loHalf_lt (n : Nat) : loHalf n < 2 ^ 32 := Nat.mod_lt _ (by decide)

/-- The two `htonl` calls, and what the shift and the `|` make of them. -/
theorem toNat_hton64 (o : ByteOrder) (x : UInt64) :
    (hton64 o x).toNat = o.toNet 4 (loHalf x.toNat) * 2 ^ 32 + o.toNet 4 (hiHalf x.toNat) := by
  have hx : x.toNat < 2 ^ 64 := x.toNat_lt
  have hhi : ((x >>> 32).toUInt32).toNat = hiHalf x.toNat := by
    have h32 : (32 : UInt64).toNat % 64 = 32 := by decide
    rw [UInt64.toNat_toUInt32, UInt64.toNat_shiftRight, h32, Nat.shiftRight_eq_div_pow]
    exact Nat.mod_eq_of_lt (hiHalf_lt hx)
  have hlo : ((x &&& 0xFFFFFFFF).toUInt32).toNat = loHalf x.toNat := by
    have hmask : (0xFFFFFFFF : UInt64).toNat = 2 ^ 32 - 1 := by decide
    rw [UInt64.toNat_toUInt32, UInt64.toNat_and, hmask, Nat.and_two_pow_sub_one_eq_mod,
      Nat.mod_mod, loHalf]
  have hhi' : o.toNet 4 (hiHalf x.toNat) < 2 ^ 32 := toNet_lt o (hiHalf_lt hx)
  have hlo' : o.toNet 4 (loHalf x.toNat) < 2 ^ 32 := toNet_lt o (loHalf_lt x.toNat)
  have h32 : (32 : UInt64).toNat % 64 = 32 := by decide
  rw [hton64, UInt64.toNat_or, UInt64.toNat_shiftLeft, h32, UInt32.toNat_toUInt64,
    UInt32.toNat_toUInt64, toNat_htonl, toNat_htonl, hhi, hlo, Nat.shiftLeft_eq,
    Nat.mod_eq_of_lt (by omega), Nat.mul_comm, Nat.two_pow_add_eq_or_of_lt hhi']

/-- On a little-endian host the memory of `hton64` holds the big-endian bytes. -/
theorem store_hton64_little (x : UInt64) :
    ByteOrder.little.store 8 (hton64 .little x).toNat = beBytes 8 x.toNat := by
  have hx : x.toNat < 2 ^ 64 := x.toNat_lt
  have hhi : ByteOrder.little.toNet 4 (hiHalf x.toNat) < 256 ^ 4 := toNet_lt .little (hiHalf_lt hx)
  have hstore : ∀ n, leBytes 4 (ByteOrder.little.toNet 4 n) = beBytes 4 n := store_toNet .little 4
  rw [toNat_hton64, ByteOrder.store, show 8 = 4 + 4 from rfl, leBytes_add, beBytes_add]
  have hdiv : (ByteOrder.little.toNet 4 (loHalf x.toNat) * 2 ^ 32 +
      ByteOrder.little.toNet 4 (hiHalf x.toNat)) / 256 ^ 4 =
      ByteOrder.little.toNet 4 (loHalf x.toNat) := by omega
  have hmod : (ByteOrder.little.toNet 4 (loHalf x.toNat) * 2 ^ 32 +
      ByteOrder.little.toNet 4 (hiHalf x.toNat)) % 256 ^ 4 =
      ByteOrder.little.toNet 4 (hiHalf x.toNat) := by omega
  rw [hdiv, ← leBytes_mod, hmod, hstore, hstore, ← beBytes_mod 4 x.toNat]
  rfl

/-- On a big-endian host it holds the lower half first. -/
theorem store_hton64_big (x : UInt64) :
    ByteOrder.big.store 8 (hton64 .big x).toNat =
      beBytes 4 (loHalf x.toNat) ++ beBytes 4 (hiHalf x.toNat) := by
  have hx : x.toNat < 2 ^ 64 := x.toNat_lt
  have hhi := hiHalf_lt hx
  rw [toNat_hton64, ByteOrder.store, show 8 = 4 + 4 from rfl, beBytes_add]
  simp only [ByteOrder.toNet]
  have hdiv : (loHalf x.toNat * 2 ^ 32 + hiHalf x.toNat) / 256 ^ 4 = loHalf x.toNat := by omega
  have hmod : (loHalf x.toNat * 2 ^ 32 + hiHalf x.toNat) % 256 ^ 4 = hiHalf x.toNat := by omega
  rw [hdiv, ← beBytes_mod 4 (_ + _), hmod]

theorem ntohs_htons (o : ByteOrder) (x : UInt16) : ntohs o (htons o x) = x := by
  rw [← UInt16.toNat_inj, show ntohs o = htons o from rfl, toNat_htons, toNat_htons,
    toNet_toNet o x.toNat_lt]

theorem ntohl_htonl (o : ByteOrder) (x : UInt32) : ntohl o (htonl o x) = x := by
  rw [← UInt32.toNat_inj, show ntohl o = htonl o from rfl, toNat_htonl, toNat_htonl,
    toNet_toNet o x.toNat_lt]

theorem ntoh64_hton64 (o : ByteOrder) (x : UInt64) : ntoh64 o (hton64 o x) = x := by
  have hx : x.toNat < 2 ^ 64 := x.toNat_lt
  have hlo := loHalf_lt x.toNat
  have hhi := hiHalf_lt hx
  have hlo' : o.toNet 4 (loHalf x.toNat) < 2 ^ 32 := toNet_lt o hlo
  have hhi' : o.toNet 4 (hiHalf x.toNat) < 2 ^ 32 := toNet_lt o hhi
  have hupper : hiHalf (hton64 o x).toNat = o.toNet 4 (loHalf x.toNat) := by
    rw [toNat_hton64, hiHalf]
    omega
  have hlower : loHalf (hton64 o x).toNat = o.toNet 4 (hiHalf x.toNat) := by
    rw [toNat_hton64, loHalf]
    omega
  rw [ntoh64, ← UInt64.toNat_inj, toNat_hton64, hupper, hlower, toNet_toNet o hhi,
    toNet_toNet o hlo, hiHalf, loHalf]
  omega

end Tlv
